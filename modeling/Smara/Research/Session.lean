import Smara.Goals.Spec
import Smara.Lib.Calls
import Smara.Research.Schema

/-! # The calls of the session of a research

Each call is a program over the session: what it reads, what it asks of its machine, and the statements
with which it changes the graph, the evidence and the claims, up to the snapshot it puts away.

* `plan`, `search`, `fetch`, `ingestFile`, `ingestPdfCollection`, `analyze`, `resolve`, `validate`,
  `writeReport`: the calls.
* `perform`, `step`: a call of a session, and the session after it. -/

namespace Smara.Research.Session

open Goals.Spec (strip)
open Lib.Calls Lib.Scripts Lib.Table
open Research.Graph Research.Schema

/-- `value or default` -/
def orElse (value : Option String) (default : String) : String := (value.filter (· ≠ "")).getD default

/-- `str` of an exception. -/
def Err.text : Err → String
  | .valueError message => message
  | .keyError key => "'" ++ key ++ "'"
  | .researchStateError message => message
  | .raised _ message => message

/-- `raise ResearchStateError(message)`, unless the condition holds -/
def requireState (p : Prop) [Decidable p] (message : String) : Program Unit :=
  require p (.researchStateError message)

/-- `self.validation = {}` -/
def resetValidation : Program Unit := put fun s => { s with validation := none }

/-! ### Plans -/

/-- A question of a plan. -/
structure Item where
  id : String
  question : String
  dependencies : List String := []
  stoppingCriterion : Option String := none
  deriving DecidableEq

def Item.node (item : Item) : ResearchNode where
  id := strip item.id
  question := strip item.question
  dependencies := item.dependencies
  stoppingCriterion := orElse item.stoppingCriterion "directly supported claim with fetched evidence"

/-- The body of the inner loop of `plan`. -/
def addItem (r : ResearchGraph × List String) (item : Item) :
    Except Err (ResearchGraph × List String) :=
  if strip item.id = "" ∨ strip item.question = "" then
    .error (.researchStateError "every research node needs id and question")
  else if strip item.id ∈ ids r.1.nodes then .ok (r.1, r.2 ++ [strip item.id])
  else
    match r.1.add item.node with
    | .error e => .error e
    | .ok g => .ok (g, r.2 ++ [strip item.id])

def Item.Ready (g : ResearchGraph) (item : Item) : Prop := ∀ d ∈ item.dependencies, d ∈ ids g.nodes

instance (g : ResearchGraph) (item : Item) : Decidable (item.Ready g) :=
  inferInstanceAs (Decidable (∀ d ∈ _, _))

def waiting (g : ResearchGraph) (pending : List Item) : List Item :=
  pending.filter fun item => ¬ item.Ready g

theorem length_waiting {g : ResearchGraph} {pending : List Item} (h : ∃ item ∈ pending, item.Ready g) :
    (waiting g pending).length < pending.length := by
  obtain ⟨item, hitem, hready⟩ := h
  exact List.length_filter_lt_length_iff_exists.mpr ⟨item, hitem, by simpa using hready⟩

/-- The inner loop of `plan`: the items that are ready are added. -/
def addRound (pending : List Item) (r : ResearchGraph × List String) :
    Except Err (ResearchGraph × List String) :=
  (pending.filter (Item.Ready r.1)).foldlM addItem r

/-- The outer loop of `plan`. -/
def addItems (pending : List Item) (r : ResearchGraph × List String) :
    Except Err (ResearchGraph × List String) :=
  if pending = [] then .ok r
  else if hready : ∃ item ∈ pending, item.Ready r.1 then
    match addRound pending r with
    | .error e => .error e
    | .ok r' => addItems (waiting r.1 pending) r'
  else .error (.researchStateError "research plan has missing or cyclic dependencies")
termination_by pending.length
decreasing_by exact length_waiting hready

def planned (question : String) (items : List Item) : List Item :=
  if items = [] then [{ id := "answer", question := question }] else items

def candidate (limit : ℕ) (replacePlan : Bool) (pending : List Item) (g : ResearchGraph) :
    Except Err (ResearchGraph × List String) :=
  if (pending.map fun item => strip item.id).Nodup then
    match if replacePlan then .ok {} else ResearchGraph.fromDict g.toDict with
    | .error e => .error e
    | .ok base =>
      if limit < ((ids base.nodes ++ pending.map fun item => strip item.id).eraseDups).length then
        .error (.researchStateError s!"research plan exceeds {limit} nodes for the active lane")
      else addItems pending ({ base with maxNodes := limit }, [])
  else .error (.researchStateError "duplicate research node ids")

/-- What `plan` returns. -/
structure Planned where
  ready : List String
  graph : List ResearchNode
  removedNodeIds : List String
  retainedEvidenceCount : ℕ
  retainedFailureCount : ℕ

def plan (host : Host) (question : String) (items : List Item) (replacePlan : Bool) :
    Program Planned := do
  requireState (strip question ≠ "") "research question is required"
  let before ← get Research.graph
  match candidate host.policy.maxNodes replacePlan (planned (strip question) items) before with
  | .error e => raise e
  | .ok (graph, _) =>
    put fun s => { s with
      graph := graph, claims := if replacePlan then [] else s.claims, validation := none }
    let _ ← save "research_planned"
    get fun s => {
      ready := s.graph.ready.map ResearchNode.id
      graph := s.graph.toDict
      removedNodeIds := ((ids before.nodes).filter (· ∉ ids graph.nodes)).mergeSort (· ≤ ·)
      retainedEvidenceCount := s.index.records.length
      retainedFailureCount := s.index.failures.length }

/-! ### Evidence -/

def knownNode (nodeId : String) : Program ResearchNode := do
  let found ← get fun s => s.graph.node nodeId
  match found with
  | none => raise (.researchStateError "unknown research node")
  | some n => return n

def unmet (g : ResearchGraph) (n : ResearchNode) : List String :=
  n.dependencies.filter fun d => (g.node d).map ResearchNode.state ≠ some .supported

/-- `str` of a list of ids -/
def listed (ids : List String) : String :=
  "[" ++ String.intercalate ", " (ids.map fun id => "'" ++ id ++ "'") ++ "]"

/-- The node, whose dependencies have to be supported. -/
def readyNode (nodeId : String) : Program Unit := do
  let n ← knownNode nodeId
  let missing ← get fun s => unmet s.graph n
  requireState (missing = []) ("Research node '" ++ nodeId ++ "' has unresolved dependencies: " ++
    listed missing ++ ". Resolve them first with research_resolve, or define nodes without dependencies.")

/-- `EvidenceIndex.add`; `before` is the index that the call has found. -/
def addEvidence (before : EvidenceIndex) (kind : EvidenceKind) (url text : String) :
    Program EvidenceRecord := do
  let index ← get Research.index
  let made : Except Err EvidenceRecord ← request (Ask.add (decide (index ≠ before)) kind url text)
  let record ← settled made
  match lookup EvidenceRecord.id record.id index.records with
  | some known => return known
  | none =>
    put fun s => { s with index := { s.index with records := s.index.records ++ [record] } }
    return record

def recordFailure (url error : String) : Program Unit := do
  let made : Except Err Failure ← request (Ask.failure url error)
  let failure ← settled made
  put fun s => { s with index := { s.index with failures := s.index.failures ++ [failure] } }

def addHits (before : EvidenceIndex) : List Hit → Program (List Lead)
  | [] => return []
  | hit :: hits => do
    let record ← addEvidence before .searchSnippet hit.url hit.snippet
    let leads ← addHits before hits
    return ⟨hit.url, hit.snippet, hit.provider, some record.id⟩ :: leads

/-- `self.leads.setdefault(node_id, []).extend(records)` -/
def extendLeads (nodeId : String) (records : List Lead) (leads : List (String × List Lead)) :
    List (String × List Lead) :=
  upsert Prod.fst (nodeId, records) (fun l => (l.1, l.2 ++ records)) leads

def search (host : Host) (nodeId query : String) (maxResults : ℕ) (includeDomains : List String) :
    Program (List Lead) := do
  readyNode nodeId
  let domains ← settled (host.normalizeSearchDomains includeDomains)
  let answered : Except Err (List Hit) ← request (Ask.search query maxResults domains)
  let hits ← settled answered
  let before ← get Research.index
  let records ← addHits before hits
  put fun s => { s with leads := extendLeads nodeId records s.leads }
  resetValidation
  let _ ← save "research_searched"
  return records

/-- What a call that looks for evidence returns. -/
inductive Found
  | ok (record : EvidenceRecord) (deduplicated : Bool)
  | error (error : String) (deduplicated : Bool)
  | unavailable (reason : String)

/-- `str.rstrip("/")` -/
def rstripSlash (url : String) : String :=
  String.ofList (url.toList.reverse.dropWhile (· = '/')).reverse

/-- A source that has been fetched before. -/
def refetch (host : Host) (url : String) (existing : EvidenceRecord) : Program Found := do
  if Gated host existing then
    let problem := (host.restricted existing.text).getD ""
    resetValidation
    let failures ← get fun s => s.index.failures
    if ∃ f ∈ failures, f.canonicalUrl = existing.canonicalUrl ∧
        host.contains f.error "restricted_source_content" then
      let _ ← save "research_fetch_failed"
      return .error problem true
    else
      recordFailure url problem
      let _ ← save "research_fetch_failed"
      return .error problem true
  else return .ok existing true

/-- A source could not be fetched. -/
def fetchFailed (url error : String) : Program Found := do
  recordFailure url error
  let _ ← save "research_fetch_failed"
  return .error error false

def fetch (host : Host) (nodeId url : String) : Program Found := do
  readyNode nodeId
  let before ← get Research.index
  match before.records.find? fun r => r.kind.Fetched ∧ rstripSlash r.canonicalUrl = rstripSlash url with
  | some existing => refetch host url existing
  | none =>
    let fetched : Except Err Source ← request (Ask.fetch url)
    match fetched with
    | .error e => fetchFailed url (Err.text e)
    | .ok source =>
      match host.restricted source.excerpt with
      | some problem => fetchFailed url problem
      | none =>
        let record ← addEvidence before .fetchedPassage (orElse source.finalUrl url) source.excerpt
        resetValidation
        let _ ← save "research_fetched"
        return .ok record false

def ingested (before : EvidenceIndex) (kind : EvidenceKind) (url text : String) : Program Found := do
  let record ← addEvidence before kind url text
  resetValidation
  let _ ← save "research_file_ingested"
  return .ok record false

def ingestFile (nodeId path : String) (page row column : ℤ) : Program Found := do
  readyNode nodeId
  let extracted : Except Err Extraction ← request (Ask.extract path page row column)
  let extraction ← settled extracted
  let before ← get Research.index
  match extraction with
  | .unavailable => return .unavailable "pypdf is not installed"
  | .passage kind url text => ingested before kind url text
  | .ocr url text =>
    if text = "" then
      recordFailure url "OCR returned no text"
      ingested before .imageOcr url text
    else ingested before .imageOcr url text
  | .ocrFailed url error =>
    recordFailure url ("Sarvam OCR failed: " ++ error)
    let _ ← save "research_extraction_failed"
    return .error error false
  | .ocrUnavailable url =>
    recordFailure url "OCR extractor unavailable"
    let _ ← save "research_extraction_unavailable"
    return .unavailable "pytesseract is not installed"

/-- The pages of a file of a collection. -/
def addPages (before : EvidenceIndex) (path : String) : List (ℕ × String) → Program (List String)
  | [] => return []
  | (page, text) :: pages => do
    let record ← addEvidence before .pdfPage (path ++ "#page=" ++ toString page) text
    let rest ← addPages before path pages
    return record.id :: rest

def addFiles (before : EvidenceIndex) : List PdfFile → Program (List String)
  | [] => return []
  | file :: files => do
    let index ← get Research.index
    let read : Except Err Unit ← request (Ask.read (decide (index ≠ before)) file.path)
    settled read
    let pages ← addPages before file.path file.pages
    let rest ← addFiles before files
    return pages ++ rest

def ingestPdfCollection (nodeId root : String) : Program (List String) := do
  let _ ← knownNode nodeId
  let scanned : Except Err (List PdfFile) ← request (Ask.scan root)
  let files ← settled scanned
  let before ← get Research.index
  let pages ← addFiles before files
  resetValidation
  let manifest : Except Err String ← request Ask.putArtifact
  let _ ← settled manifest
  let _ ← save "research_pdf_collection_ingested"
  return pages

/-! ### Analyses -/

/-- The evidence that may not be relied on. -/
def invalidEvidence : List String → Program (List (String × String))
  | [] => return []
  | evidenceId :: rest => do
    let checked : Except Err (Bool × String) ← request (Ask.provenance evidenceId)
    let provenance ← settled checked
    let invalid ← invalidEvidence rest
    return if provenance.1 then invalid else (evidenceId, provenance.2) :: invalid

/-- `str` of the evidence that may not be relied on -/
def listedInvalid (invalid : List (String × String)) : String :=
  "[" ++ String.intercalate ", " (invalid.map fun i =>
    "\x7b'evidence_id': '" ++ i.1 ++ "', 'reason': '" ++ i.2 ++ "'\x7d") ++ "]"

def analyze (evidenceIds : List String) : Program Analysis := do
  requireState (evidenceIds ≠ []) "analysis requires source evidence IDs"
  let invalid ← invalidEvidence evidenceIds.eraseDups
  requireState (invalid = []) ("analysis evidence is invalid: " ++ listedInvalid invalid)
  let analyzed : Except Err AnalysisResult ← request (Ask.analyzeTabular evidenceIds.eraseDups)
  let result ← settled analyzed
  let stored : Except Err String ← request Ask.putArtifact
  let artifactId ← settled stored
  let before ← get Research.index
  let evidence ← addEvidence before .fetchedPassage ("analysis://" ++ result.datasetSha256) result.summary
  let record : Analysis := {
    analysisArtifactId := artifactId
    analysisEvidenceId := evidence.id
    datasetSha256 := result.datasetSha256
    evidenceIds := evidenceIds.eraseDups
    rowCount := result.rowCount }
  put fun s => { s with analyses := s.analyses ++ [record] }
  resetValidation
  let stateId ← save "research_analyzed"
  -- the record is one that the session holds, and so changes there
  put fun s => { s with
    analyses := s.analyses.dropLast ++ [{ record with researchStateArtifactId := some stateId }] }
  return { record with researchStateArtifactId := some stateId }

def Analysis.Named (name : String) (a : Analysis) : Prop :=
  a.analysisArtifactId = name ∨ a.datasetSha256 = name ∨ a.analysisEvidenceId = name ∨
    a.researchStateArtifactId = some name

instance (name : String) (a : Analysis) : Decidable (Analysis.Named name a) :=
  inferInstanceAs (Decidable (_ ∨ _))

def Analysis.made (a : Analysis) : List String :=
  if a.analysisEvidenceId = "" then [] else [a.analysisEvidenceId]

/-! ### Resolutions -/

def resolvedIds (s : Research) (evidenceIds : List String) : List String :=
  let raw := evidenceIds.eraseDups
  let named := raw.flatMap fun name =>
    if name ∈ s.index.records.map EvidenceRecord.id then [name]
    else (s.analyses.filter (Analysis.Named name)).flatMap fun a => Analysis.made a ++ a.evidenceIds
  let derived := named.flatMap fun name =>
    (s.analyses.filter fun a => name ∈ a.evidenceIds).flatMap Analysis.made
  if named = [] then raw else (named ++ derived).eraseDups

def judgeAll (claim : String) : List String → Program (List Judgment)
  | [] => return []
  | evidenceId :: rest => do
    let known ← get fun s => s.index.records.map EvidenceRecord.id
    if evidenceId ∈ known then
      let checked : Except Err (Bool × String) ← request (Ask.provenance evidenceId)
      let provenance ← settled checked
      let answered : Except Err (ClaimState × String) ← request (Ask.judge evidenceId claim)
      let judged ← settled answered
      let judgments ← judgeAll claim rest
      return (if provenance.1 then ⟨evidenceId, judged.1, judged.2⟩
        else ⟨evidenceId, .insufficient, provenance.2⟩) :: judgments
    else
      let judgments ← judgeAll claim rest
      return ⟨evidenceId, .insufficient, "missing_evidence"⟩ :: judgments

def outcome (judgments : List Judgment) : ClaimState :=
  let states := judgments.map Judgment.state
  if ClaimState.refuted ∈ states then .refuted
  else if ClaimState.supported ∈ states then .supported
  else if ClaimState.insufficient ∈ states then .insufficient
  else .blocked

def nodeState : ClaimState → NodeState
  | .refuted => .refuted
  | .supported => .supported
  | _ => .blocked

def Contradictory (judgments : List Judgment) : Prop :=
  ClaimState.supported ∈ judgments.map Judgment.state ∧ ClaimState.refuted ∈ judgments.map Judgment.state

instance (judgments : List Judgment) : Decidable (Contradictory judgments) :=
  inferInstanceAs (Decidable (_ ∧ _))

/-- A statement about the graph. -/
def onGraph (f : ResearchGraph → Except Err ResearchGraph) : Program Unit :=
  attempt fun s =>
    match f s.graph with
    | .ok graph => .ok { s with graph := graph }
    | .error e => .error e

def conflictQuestion (claim : String) : String := "Resolve contradictory evidence for: " ++ claim

/-- What `resolve` returns. -/
structure Resolution where
  resolution : ClaimRecord
  contradictionNodeId : Option String
  ready : List String
  unresolved : List String

/-- The nodes without an answer. -/
def unresolvedNodes (g : ResearchGraph) : List String :=
  (g.nodes.filter fun n => n.state = .unresolved ∨ n.state = .blocked).map ResearchNode.id

def expand (host : Host) (nodeId claim : String) (judgments : List Judgment) : Program Unit :=
  if Contradictory judgments then
    onGraph (ResearchGraph.expandContradiction host.sha nodeId (conflictQuestion claim))
  else return

/-- The end of `resolve`, with the judgments of the evidence. -/
def conclude (host : Host) (nodeId claim : String) (ids : List String) (judgments : List Judgment) :
    Program Resolution := do
  onGraph (ResearchGraph.resolve nodeId (nodeState (outcome judgments)) ids)
  expand host nodeId claim judgments
  let record : ClaimRecord := ⟨nodeId, claim, ids, outcome judgments, judgments⟩
  put fun s => { s with claims := s.claims.filter (fun c => c.nodeId ≠ nodeId) ++ [record] }
  resetValidation
  let _ ← save "research_resolved"
  get fun s => {
    resolution := record
    contradictionNodeId := if Contradictory judgments then
      some (ResearchGraph.conflictId host.sha nodeId (conflictQuestion claim)) else none
    ready := s.graph.ready.map ResearchNode.id
    unresolved := unresolvedNodes s.graph }

def resolve (host : Host) (nodeId claim : String) (evidenceIds : List String) : Program Resolution := do
  let _ ← knownNode nodeId
  let ids ← get fun s => resolvedIds s evidenceIds
  let judgments ← judgeAll claim ids
  conclude host nodeId claim ids judgments

/-! ### Validations -/

def derive (s : Research) (claim : Claim) : Claim where
  claim := claim.claim
  evidenceIds := (claim.evidenceIds ++ claim.evidenceIds.flatMap fun name =>
    (s.analyses.filter fun a => name ∈ a.evidenceIds ∨ Analysis.Named name a).flatMap
      Analysis.made).eraseDups

def firstSupport (claim : String) : List String → Program (Option String)
  | [] => return none
  | evidenceId :: rest => do
    let answered : Except Err (ClaimState × String) ← request (Ask.judge evidenceId claim)
    let judged ← settled answered
    if judged.1 = .supported then return some evidenceId else firstSupport claim rest

/-- The claims with evidence in place of what does not support them, and what has been replaced. -/
def repair (fetched : List String) : List (Claim × Check) → Program (List Claim × List Repair)
  | [] => return ([], [])
  | (claim, check) :: rest => do
    if check.supported then
      let repaired ← repair fetched rest
      return (claim :: repaired.1, repaired.2)
    else
      let found ← firstSupport claim.claim fetched
      let repaired ← repair fetched rest
      match found with
      | none => return (claim :: repaired.1, repaired.2)
      | some evidenceId =>
        return (⟨claim.claim, [evidenceId]⟩ :: repaired.1,
          ⟨claim.claim, claim.evidenceIds, evidenceId⟩ :: repaired.2)

/-- What `validate` has scored: the score, the claims with their repairs, and the repairs. -/
structure Scored where
  score : Score
  checks : List Claim
  repaired : List Repair := []

/-- The score of the claims, after repairs if they are needed. -/
def scored (checks : List Claim) : Program Scored := do
  let answered : Except Err Score ← request (Ask.score checks)
  let score ← settled answered
  if score.supportedClaims < checks.length then
    let fetched ← get fun s => (s.index.records.filter fun r => r.kind.Fetched).map EvidenceRecord.id
    let repaired ← repair fetched (checks.zip score.claims)
    if repaired.2 = [] then return { score := score, checks := checks }
    else
      let again : Except Err Score ← request (Ask.score repaired.1)
      let score ← settled again
      return { score := score, checks := repaired.1, repaired := repaired.2 }
  else return { score := score, checks := checks }

/-- The verdict of `validate`, which it keeps. -/
def verdict (claims : List Claim) (requireComplete : Bool) (r : Scored) (s : Research) : Validation where
  passed := r.checks ≠ [] ∧ r.score.supportedClaims = r.checks.length ∧
    ¬ (requireComplete ∧ unresolvedNodes s.graph ≠ [])
  requireComplete := requireComplete
  unresolvedNodes := unresolvedNodes s.graph
  score := r.score
  claims := claims
  repairedEvidence := r.repaired

def validate (claims : List Claim) (requireComplete : Bool) : Program Validation := do
  let checks ← get fun s => claims.map (derive s)
  let r ← scored checks
  let v ← get (verdict claims requireComplete r)
  put fun s => { s with validation := some v, lastValidation := some (s.content, v.passed) }
  let _ ← save "research_validated"
  return v

/-- A report that names sources that were not fetched is written without them. -/
def redact (host : Host) (content : String) (sources : List String) : Program Unit := do
  if ∃ url ∈ host.urls content, url ∉ sources then
    let _ ← save "research_report_unverified_urls_redacted"
  else return

def writeReport (host : Host) (title markdown : String) : Program String := do
  requireState host.policy.deep "research_report is available only in the deep lane"
  let passed ← get fun s => s.validation.any Validation.passed
  requireState passed "research claims must pass validation before report generation"
  requireState (strip title ≠ "") "research report title is required"
  requireState (1000 ≤ (strip markdown).length)
    "deep research report must contain at least 1000 characters"
  let sources ← get (fetchedSourceUrls host)
  requireState (host.policy.minSources ≤ sources.length)
    s!"deep research requires at least {host.policy.minSources} fetched sources before report generation"
  redact host (strip markdown) sources
  let stored : Except Err String ← request Ask.putArtifact
  let artifactId ← settled stored
  engineSet "research_report_created" fun s => { s with reportId := some artifactId }
  engineSet "research_report_created" id
  engineEvent "research_report_created"
  return artifactId

/-! ### Runs -/

/-- A call of the session. -/
inductive Call
  | plan (question : String) (items : List Item) (replacePlan : Bool)
  | search (nodeId query : String) (maxResults : ℕ) (includeDomains : List String)
  | fetch (nodeId url : String)
  | ingestFile (nodeId path : String) (page row column : ℤ)
  | ingestPdfCollection (nodeId root : String)
  | analyze (evidenceIds : List String)
  | resolve (nodeId claim : String) (evidenceIds : List String)
  | validate (claims : List Claim) (requireComplete : Bool)
  | writeReport (title markdown : String)

def perform (host : Host) : Call → Program Unit
  | .plan question items replacePlan => do
    let _ ← plan host question items replacePlan
  | .search nodeId query maxResults includeDomains => do
    let _ ← search host nodeId query maxResults includeDomains
  | .fetch nodeId url => do
    let _ ← fetch host nodeId url
  | .ingestFile nodeId path page row column => do
    let _ ← ingestFile nodeId path page row column
  | .ingestPdfCollection nodeId root => do
    let _ ← ingestPdfCollection nodeId root
  | .analyze evidenceIds => do
    let _ ← analyze evidenceIds
  | .resolve nodeId claim evidenceIds => do
    let _ ← resolve host nodeId claim evidenceIds
  | .validate claims requireComplete => do
    let _ ← validate claims requireComplete
  | .writeReport title markdown => do
    let _ ← writeReport host title markdown

/-- A call with the answers that the machine gives it, or the session is opened again. -/
inductive Event
  | call (c : Call) (answers : Answers Answer)
  | reload

/-- The session after an event. -/
def step (host : Host) (s : Research) : Event → Research
  | .call c answers => (exec answers 0 (perform host c) s).2.1
  | .reload => reload host s

/-! ### A machine that gets on -/

/-- A machine whose store goes by how much there is of everything. -/
def plain (policy : Policy) : Host where
  policy := policy
  sha text := text
  address snap := String.intercalate "." [toString snap.evidence.records.length,
    toString snap.evidence.failures.length, toString snap.claims.length, toString snap.validation.isSome]
  restricted _ := none
  contains _ _ := false
  normalizeSearchDomains domains := .ok domains
  urls _ := []

/-- Answers that raise nothing; `judge` says what the evidence with an id means. -/
def agreeable (judge : String → ClaimState) : Answers Answer := fun _ i =>
  match i with
  | .write _ => .ok ()
  | .event _ => .ok ()
  | .putState _ snap => .ok ((plain quickPolicy).address snap)
  | .putArtifact => .ok "artifact"
  | .add _ kind url text => .ok ⟨url, kind, url, text, some url, none, ""⟩
  | .failure url error => .ok ⟨url, "2026-01-01", error⟩
  | .search _ _ _ => .ok []
  | .fetch url => .ok ⟨some url, url, url, none⟩
  | .extract _ _ _ _ => .ok .unavailable
  | .scan _ => .ok []
  | .read _ _ => .ok ()
  | .provenance _ => .ok (true, "valid")
  | .judge evidenceId _ => .ok (judge evidenceId, "judged")
  | .analyzeTabular _ => .ok ⟨"dataset", 0, ""⟩
  | .score checks => .ok ⟨checks.map fun c => ⟨c, true, c.evidenceIds.map (⟨·, true⟩)⟩, checks.length⟩

end Smara.Research.Session
