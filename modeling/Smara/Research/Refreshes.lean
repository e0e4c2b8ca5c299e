import Smara.TaskStore.Calls

/-! # Refreshes of a research watch

* `reviewSnapshot`: what is kept of the result of a run.
* `compareRefreshes`: the difference between a kept snapshot and a result. -/

namespace Smara.Research.Refreshes

open TaskStore.Calls (strip)
open TaskStore.Report (isSpace)

structure Citation where
  url : String
  deriving DecidableEq

structure Claim where
  claim : String
  supported : Bool
  citations : List Citation
  deriving DecidableEq

structure Evidence where
  url : String
  sha256 : String
  cited : Bool
  retrievedAt : String
  deriving DecidableEq

structure Snapshot where
  answer : String := ""
  claims : List Claim := []
  evidence : List Evidence := []
  failures : List String := []
  status : Option String := none
  sessionId : Option String := none
  deriving DecidableEq

/-- The result of a canonical run, with its field `research_review`. -/
structure Result where
  answer : String := ""
  claims : List Claim := []
  evidence : List Evidence := []
  failures : List String := []
  status : Option String
  sessionId : Option String := none
  unresolvedWork : List String := []
  deriving DecidableEq

def reviewSnapshot (r : Result) : Snapshot where
  answer := r.answer
  claims := r.claims
  evidence := r.evidence
  failures := r.failures

structure Diff where
  baseline : Bool
  summary : String
  newClaims : List String := []
  unsupportedClaims : List String := []
  notRepeatedClaims : List String := []
  sourcesAdded : List String := []
  sourcesChanged : List String := []
  sourcesNotSeen : List String := []
  supportingSources : List String := []
  stalenessNote : Option String := none
  deriving DecidableEq

/-- `sorted(set(…))` -/
def sortedSet (l : List String) : List String := l.dedup.mergeSort fun a b => a ≤ b

def toDict {α : Type} (l : List (String × α)) : List (String × α) :=
  l.foldl (fun d kv => if kv.1 ∈ d.map Prod.fst then d.map fun e => if e.1 = kv.1 then kv else e else d ++ [kv]) []

/-- White space is squeezed, and the case is folded by `casefold`. -/
def claimKey (casefold : String → String) (claim : String) : String :=
  let squeeze := claim.toList.foldl (fun out c =>
    if isSpace c then if out.getLast? = some ' ' then out else out ++ [' '] else out ++ [c]) []
  casefold (strip (String.ofList squeeze))

def claimMap (casefold : String → String) (claims : List Claim) : List (String × Claim) :=
  toDict ((claims.filter fun c => strip c.claim ≠ "").map fun c => (claimKey casefold c.claim, c))

def supporting (claims : List Claim) : List String :=
  sortedSet (((claims.filter Claim.supported).flatMap Claim.citations).map Citation.url |>.filter (· ≠ ""))

def compareRefreshes (casefold : String → String) (previous : Option Snapshot) (result : Result) : Diff :=
  let current := reviewSnapshot result
  match previous with
  | none => {
      baseline := true
      summary := "Initial refresh recorded as baseline; future runs will show changes."
      supportingSources := supporting current.claims }
  | some previous =>
    let before := claimMap casefold previous.claims
    let after := claimMap casefold current.claims
    let newClaims := (after.filter fun kv => kv.1 ∉ before.map Prod.fst).map fun kv => kv.2.claim
    let unsupported := (after.filter fun kv =>
      (before.lookup kv.1).any Claim.supported ∧ kv.2.supported = false).map fun kv => kv.2.claim
    let notRepeated := (before.filter fun kv => kv.1 ∉ after.map Prod.fst).map fun kv => kv.2.claim
    let sources := fun (evidence : List Evidence) => toDict ((evidence.filter fun e => e.url ≠ "").map fun e => (e.url, e))
    let beforeSources := sources previous.evidence
    let afterSources := sources current.evidence
    let added := sortedSet ((afterSources.map Prod.fst).filter (· ∉ beforeSources.map Prod.fst))
    let changed := sortedSet ((afterSources.map Prod.fst).filter fun url =>
      ∃ b ∈ beforeSources.lookup url, ∃ a ∈ afterSources.lookup url,
        b.sha256 ≠ "" ∧ a.sha256 ≠ "" ∧ b.sha256 ≠ a.sha256)
    let missing := sortedSet ((beforeSources.map Prod.fst).filter (· ∉ afterSources.map Prod.fst))
    let changedCount := newClaims.length + unsupported.length + added.length + changed.length
    { baseline := false
      summary := toString changedCount ++ " material change(s); " ++ toString notRepeated.length ++
        " prior claim(s) were not repeated and need review."
      newClaims
      unsupportedClaims := unsupported
      notRepeatedClaims := notRepeated
      sourcesAdded := added
      sourcesChanged := changed
      sourcesNotSeen := missing
      supportingSources := supporting (after.map Prod.snd)
      stalenessNote := some ("A claim omitted in a refresh is a review candidate, not proof it became false. " ++
        "A source not fetched again is unverified, not necessarily stale.") }

end Smara.Research.Refreshes
