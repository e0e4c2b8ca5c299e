import Smara.Lib.Scripts
import Smara.Research.Graph

/-! # The session of a research

`CanonicalResearchSession` holds a graph, an index of evidence, leads, claims, a validation and analyses.
After every change it puts a snapshot of them into the store of artifacts, whose ids are digests, and
notes the id of it in its engine; a session that is opened again reads that snapshot.

* `Research` is the session with what its engine has noted, `Ask` what it asks of its machine.
* `save`, `reload`: a snapshot is put away, and read back.
* `canFinalize`: whether an answer may be given. -/

namespace Smara.Research.Schema

open Lib.Table Lib.Scripts
open Research.Graph

/-! ### The data -/

inductive EvidenceKind
  | searchSnippet | fetchedPassage | pdfPage | pdfTable | imageOcr
  deriving DecidableEq

def EvidenceKind.Fetched (kind : EvidenceKind) : Prop :=
  kind ∈ [.fetchedPassage, .pdfPage, .pdfTable, .imageOcr]

instance (kind : EvidenceKind) : Decidable kind.Fetched := inferInstanceAs (Decidable (_ ∈ _))

structure EvidenceRecord where
  id : String
  kind : EvidenceKind
  canonicalUrl : String
  text : String
  sourceArtifactId : Option String := none
  publishedAt : Option String := none
  sourceTitle : String := ""
  deriving DecidableEq

structure Failure where
  canonicalUrl : String
  retrievedAt : String
  error : String
  deriving DecidableEq

structure EvidenceIndex where
  records : List EvidenceRecord := []
  failures : List Failure := []
  deriving DecidableEq

/-- A hit of a search, with the evidence made of it. -/
structure Lead where
  url : String
  snippet : String
  provider : String
  evidenceId : Option String
  deriving DecidableEq

inductive ClaimState
  | supported | refuted | insufficient | blocked
  deriving DecidableEq

def ClaimState.name : ClaimState → String
  | .supported => "supported"
  | .refuted => "refuted"
  | .insufficient => "insufficient"
  | .blocked => "blocked"

structure Judgment where
  evidenceId : String
  state : ClaimState
  reason : String
  deriving DecidableEq

structure ClaimRecord where
  nodeId : String
  claim : String
  evidenceIds : List String
  state : ClaimState
  judgments : List Judgment
  deriving DecidableEq

structure Claim where
  claim : String
  evidenceIds : List String
  deriving DecidableEq

structure Citation where
  evidenceId : String
  supported : Bool
  deriving DecidableEq

structure Check where
  claim : Claim
  supported : Bool
  citations : List Citation
  deriving DecidableEq

/-- What `score_claims` returns. -/
structure Score where
  claims : List Check
  supportedClaims : ℕ
  deriving DecidableEq

/-- A claim whose evidence `validate` has replaced. -/
structure Repair where
  claim : String
  replaced : List String
  by_ : String
  deriving DecidableEq

structure Validation where
  passed : Bool
  requireComplete : Bool
  unresolvedNodes : List String
  score : Score
  claims : List Claim
  repairedEvidence : List Repair := []
  deriving DecidableEq

structure Analysis where
  analysisArtifactId : String
  analysisEvidenceId : String
  datasetSha256 : String
  evidenceIds : List String
  rowCount : ℕ
  researchStateArtifactId : Option String := none
  deriving DecidableEq

structure Snapshot where
  nodes : List ResearchNode
  evidence : EvidenceIndex
  leads : List (String × List Lead)
  claims : List ClaimRecord
  validation : Option Validation
  analyses : List Analysis
  deriving DecidableEq

/-- What a validation is computed on. -/
structure Content where
  nodes : List ResearchNode
  claims : List ClaimRecord
  evidence : EvidenceIndex
  analyses : List Analysis
  deriving DecidableEq

def Snapshot.content (snap : Snapshot) : Content where
  nodes := snap.nodes
  claims := snap.claims
  evidence := snap.evidence
  analyses := snap.analyses

structure Policy where
  deep : Bool
  minSources : ℕ
  maxNodes : ℕ
  comprehensiveReport : Bool

def quickPolicy : Policy := ⟨false, 3, 4, false⟩

/-- A session, with what its engine has noted. -/
structure Research where
  graph : ResearchGraph := {}
  index : EvidenceIndex := {}
  leads : List (String × List Lead) := []
  claims : List ClaimRecord := []
  /-- `none` is the empty dictionary -/
  validation : Option Validation := none
  analyses : List Analysis := []
  /-- the snapshots in the store of artifacts -/
  artifacts : List Snapshot := []
  /-- `research_state_artifact_id` -/
  stateId : Option String := none
  /-- `research_validated_state_artifact_id` -/
  validatedId : Option String := none
  /-- `research_report_artifact_id` -/
  reportId : Option String := none
  /-- what the last validation has been computed on, and its verdict; not in the source -/
  lastValidation : Option (Content × Bool) := none

def Research.snapshot (s : Research) : Snapshot where
  nodes := s.graph.toDict
  evidence := s.index
  leads := s.leads
  claims := s.claims
  validation := s.validation
  analyses := s.analyses

/-- What a validation of the session would be computed on. -/
def Research.content (s : Research) : Content := s.snapshot.content

def Research.Passed (s : Research) : Prop := ∃ v, s.validation = some v ∧ v.passed

instance (s : Research) : Decidable s.Passed :=
  decidable_of_iff (s.validation.any Validation.passed) (by simp [Research.Passed, Option.any_eq_true])

/-! ### The machine -/

/-- What the session reads of its process. -/
structure Host where
  policy : Policy
  /-- `hashlib.sha256(…).hexdigest()` of a text -/
  sha : String → String
  /-- the id of a snapshot in the store of artifacts: the digest of its JSON -/
  address : Snapshot → String
  /-- `restricted_content_reason` -/
  restricted : String → Option String
  /-- `needle in text` -/
  contains : String → String → Bool
  normalizeSearchDomains : List String → Except Err (List String)
  /-- the urls of a text -/
  urls : String → List String

structure Hit where
  url : String
  snippet : String
  provider : String

/-- What a fetcher returns. -/
structure Source where
  finalUrl : Option String
  excerpt : String
  title : String
  publishedAt : Option String

inductive Extraction
  /-- `pypdf` is not installed -/
  | unavailable
  | passage (kind : EvidenceKind) (url text : String)
  | ocr (url text : String)
  | ocrFailed (url error : String)
  | ocrUnavailable (url : String)

/-- A file of a collection, with its pages that have a text. -/
structure PdfFile where
  path : String
  pages : List (ℕ × String)

/-- What `analyze_tabular` returns. -/
structure AnalysisResult where
  datasetSha256 : String
  rowCount : ℕ
  summary : String

/-- What the session asks of its machine. -/
inductive Ask
  /-- a value is set in the engine, at an event -/
  | write (event : String)
  /-- the event is written -/
  | event (event : String)
  /-- `artifact_store.put_json` of a snapshot, at an event -/
  | putState (event : String) (snap : Snapshot)
  /-- another artifact is put away -/
  | putArtifact
  /-- `index.add` makes a record; `again` if the call has changed the session before -/
  | add (again : Bool) (kind : EvidenceKind) (url text : String)
  /-- `record_failure` makes a failure -/
  | failure (url error : String)
  | search (query : String) (maxResults : ℕ) (domains : List String)
  | fetch (url : String)
  | extract (path : String) (page row column : ℤ)
  | scan (root : String)
  /-- a file of a collection is read; `again` as above -/
  | read (again : Bool) (path : String)
  /-- `validate_artifact` -/
  | provenance (evidenceId : String)
  /-- `judge` -/
  | judge (evidenceId claim : String)
  | analyzeTabular (evidenceIds : List String)
  /-- `score_claims` -/
  | score (checks : List Claim)

/-- The answers, any of which may be an exception. -/
def Answer : Ask → Type
  | .write _ => Except Err Unit
  | .event _ => Except Err Unit
  | .putState _ _ => Except Err String
  | .putArtifact => Except Err String
  | .add _ _ _ _ => Except Err EvidenceRecord
  | .failure _ _ => Except Err Failure
  | .search _ _ _ => Except Err (List Hit)
  | .fetch _ => Except Err Source
  | .extract _ _ _ _ => Except Err Extraction
  | .scan _ => Except Err (List PdfFile)
  | .read _ _ => Except Err Unit
  | .provenance _ => Except Err (Bool × String)
  | .judge _ _ => Except Err (ClaimState × String)
  | .analyzeTabular _ => Except Err AnalysisResult
  | .score _ => Except Err Score

abbrev Program : Type → Type := Script Research Err Answer

def settled {α : Type} : Except Err α → Program α
  | .ok a => return a
  | .error e => raise e

/-! ### Snapshots -/

/-- `self.engine.set` -/
def engineSet (event : String) (f : Research → Research) : Program Unit := do
  let written : Except Err Unit ← request (Ask.write event)
  settled written
  put f

/-- `self.engine.event` -/
def engineEvent (event : String) : Program Unit := do
  let written : Except Err Unit ← request (Ask.event event)
  settled written

/-- Whether the snapshot is one that has been validated. -/
def noteValidated (event stateId : String) : Program Unit :=
  if event = "research_validated" then engineSet event fun s => { s with validatedId := some stateId }
  else if event = "research_planned" then engineSet event fun s => { s with validatedId := none }
  else return

/-- What the engine notes besides the id: `research_state_invalid` and `research_validation`, which nothing
here reads, and the validation. -/
def noteRest (event stateId : String) : Program Unit := do
  engineSet event id
  engineSet event id
  noteValidated event stateId
  engineEvent event

/-- A snapshot is put away under its id, and the engine notes it. -/
def note (event : String) (value : Snapshot) (stateId : String) : Program String := do
  put fun s => { s with artifacts := s.artifacts ++ [value] }
  engineSet event fun s => { s with stateId := some stateId }
  noteRest event stateId
  return stateId

def save (event : String) : Program String := do
  let value ← get Research.snapshot
  let stored : Except Err String ← request (Ask.putState event value)
  let stateId ← settled stored
  note event value stateId

def noted (host : Host) (s : Research) : Option Snapshot :=
  match s.stateId with
  | none => none
  | some id => s.artifacts.find? fun snap => host.address snap = id

def blank (s : Research) : Research :=
  { s with graph := {}, index := {}, leads := [], claims := [], validation := none, analyses := [] }

/-- A session with what a snapshot says. -/
def restore (snap : Snapshot) (s : Research) : Except Err Research :=
  match ResearchGraph.fromDict snap.nodes with
  | .error e => .error e
  | .ok graph =>
    .ok { s with graph, index := snap.evidence, leads := snap.leads, claims := snap.claims
                 validation := snap.validation, analyses := snap.analyses }

def load (host : Host) (s : Research) : Except Err Research :=
  match noted host s with
  | none => .ok (blank s)
  | some snap => restore snap s

/-- A session that is opened again; there is none if `_load` raises. -/
def reload (host : Host) (s : Research) : Research :=
  match load host s with
  | .error _ => blank s
  | .ok s => s

/-! ### Finalization -/

def Web (url : String) : Prop := url.startsWith "http://" ∨ url.startsWith "https://"

instance (url : String) : Decidable (Web url) := inferInstanceAs (Decidable (_ ∨ _))

def Gated (host : Host) (r : EvidenceRecord) : Prop :=
  r.kind = .fetchedPassage ∧ Web r.canonicalUrl ∧ (host.restricted r.text).isSome

instance (host : Host) (r : EvidenceRecord) : Decidable (Gated host r) :=
  inferInstanceAs (Decidable (_ ∧ _))

def fetchedSourceUrls (host : Host) (s : Research) : List String :=
  ((s.index.records.filter fun r => r.kind.Fetched ∧
    (Web r.canonicalUrl ∨ r.canonicalUrl.startsWith "file://") ∧ ¬ Gated host r).map
    EvidenceRecord.canonicalUrl).eraseDups

def primaryOutcome (s : Research) : ClaimState :=
  match s.claims.getLast? with
  | some claim => claim.state
  | none =>
    if ∃ n ∈ s.graph.nodes, n.state = .refuted then .refuted
    else if ∃ n ∈ s.graph.nodes, n.state = .supported then .supported
    else .insufficient

/-- What `can_finalize` finds outside of the session. -/
structure Findings where
  /-- `resolve_artifact` finds the artifact -/
  resolves : String → Bool
  /-- the labels that the answer gives itself -/
  labels : String → List ClaimState
  /-- `validate_artifact` -/
  provenance : String → Bool × String

/-- The first citation that is supported and yet may not be relied on. -/
def badCitation (host : Host) (findings : Findings) (s : Research) (v : Validation) : Option String :=
  ((v.score.claims.flatMap Check.citations).filter Citation.supported).findSome? fun c =>
    if (lookup EvidenceRecord.id c.evidenceId s.index.records).any fun r => Gated host r then
      some "restricted_source_content"
    else if (findings.provenance c.evidenceId).1 then none
    else some (findings.provenance c.evidenceId).2

/-- **`can_finalize`**: a reason, if the answer may not be given. -/
def refusal (host : Host) (findings : Findings) (answer : String) (s : Research) : Option String :=
  match s.validation with
  | none =>
    if s.graph.nodes = [] then some "research_plan_missing"
    else some "research_claim_validation_missing_or_failed"
  | some v =>
    if s.graph.nodes = [] then some "research_plan_missing"
    else if v.passed = false then some "research_claim_validation_missing_or_failed"
    else if (fetchedSourceUrls host s).length < host.policy.minSources then
      some s!"research_source_floor_not_met_{(fetchedSourceUrls host s).length}_of_{host.policy.minSources}"
    else if host.policy.comprehensiveReport ∧ s.reportId = none then some "deep_research_report_missing"
    else if host.policy.comprehensiveReport ∧ ¬ s.reportId.any findings.resolves then
      some "deep_research_report_invalid"
    else if s.validatedId = none ∨ s.validatedId ≠ s.stateId then
      some "research_state_changed_after_validation"
    else if ¬ s.validatedId.any findings.resolves then some "research_state_artifact_invalid"
    else
      match (findings.labels answer).find? (· ≠ primaryOutcome s) with
      | some label =>
        some s!"research_outcome_mismatch_expected_{(primaryOutcome s).name}_got_{label.name}"
      | none => badCitation host findings s v

/-- `can_finalize` returns `True`. -/
def CanFinalize (host : Host) (findings : Findings) (answer : String) (s : Research) : Prop :=
  refusal host findings answer s = none

instance (host : Host) (findings : Findings) (answer : String) (s : Research) :
    Decidable (CanFinalize host findings answer s) := inferInstanceAs (Decidable (_ = none))

end Smara.Research.Schema
