import Smara.Ingest.Dates
import Smara.Lib.PyText
import Smara.Lib.Regex

/-! # Evidence for a claim

`EvidenceIndex.judge` compares a claim with the text of a record, by windows of up to four sentences that follow one
another. A window supports the claim if it is the claim, or has its words, its versions and its quantities, and a
sentence of the same polarity; and a document supports a claim on the RFC or PEP that its URL names if it has the words
of the claim anywhere. Nothing else supports a claim (`supported_spec`).

* `normalise`, `tokens`, `sentences`, `dateKeys`, `quantities`, `versions`: what is read of a text.
* `judge`: the judgment.
* `Supports`: what a window has to do with the claim. -/

namespace Smara.Research.Evidence

open Ingest (Date)
open Lib.Lawful Lib.PyText Lib.Regex Lib.Regex.Pattern
open Lib.Round (double)

abbrev Text := List Char

/-- What the tables of Unicode say. -/
structure Unicode where
  /-- `unicodedata.normalize("NFKC", …)` -/
  nfkc : Text → Text
  lower : Text → Text
  casefold : Text → Text
  /-- `\d` of a regular expression -/
  decimal : Char → Bool
  /-- the value of a decimal digit -/
  value : Char → ℕ
  /-- `\w` of a regular expression -/
  word : Char → Bool

/-- `kind` of a record -/
inductive EvidenceKind
  | searchSnippet | fetchedPassage | pdfPage | pdfTable | imageOcr
  deriving DecidableEq, Repr

/-- `state` of a judgment -/
inductive ClaimState
  | supported | refuted | insufficient
  deriving DecidableEq, Repr

/-- `EvidenceRecord`, as far as `judge` reads it -/
structure EvidenceRecord where
  id : String
  kind : EvidenceKind
  canonicalUrl : Text
  text : Text
  confidence : ℚ := 1
  textSha256 : String := ""
  deriving DecidableEq

structure ClaimJudgment where
  state : ClaimState
  reason : String
  evidenceId : String
  passageSha256 : String
  deriving DecidableEq, Repr

/-! ## Tables -/

def negations : List Text :=
  ["no", "not", "never", "neither", "nor", "without", "cannot", "can't", "didn't", "doesn't", "isn't", "wasn't",
    "weren't"].map String.toList

def stopwords : List Text :=
  ["a", "an", "and", "are", "as", "at", "be", "been", "being", "by", "for", "from", "has", "have", "had", "in", "into",
    "is", "it", "its", "of", "on", "or", "that", "the", "their", "there", "these", "this", "those", "to", "was", "were",
    "with"].map String.toList

def causal : List Text :=
  ["because", "cause", "causes", "caused", "causing", "due", "leads", "led", "results", "resulted",
    "therefore"].map String.toList

def months : List (String × ℕ) :=
  [("jan", 1), ("january", 1), ("feb", 2), ("february", 2), ("mar", 3), ("march", 3), ("apr", 4), ("april", 4),
    ("may", 5), ("jun", 6), ("june", 6), ("jul", 7), ("july", 7), ("aug", 8), ("august", 8), ("sep", 9), ("sept", 9),
    ("september", 9), ("oct", 10), ("october", 10), ("nov", 11), ("november", 11), ("dec", 12), ("december", 12)]

def dateContextWords : List Text :=
  ["date", "dated", "day", "final", "official", "officially", "release", "released", "published", "publication",
    "announcement", "announced", "on", "as", "of"].map String.toList

/-- A unit: its names, its dimension, and its factor -/
def unitAliases : List (String × String × ℚ) :=
  [("kg", "mass", 1), ("kgs", "mass", 1), ("kilogram", "mass", 1), ("kilograms", "mass", 1), ("g", "mass", 1 / 1000),
    ("gram", "mass", 1 / 1000), ("grams", "mass", 1 / 1000), ("lb", "mass", 45359237 / 100000000),
    ("lbs", "mass", 45359237 / 100000000), ("pound", "mass", 45359237 / 100000000),
    ("pounds", "mass", 45359237 / 100000000), ("km", "length", 1000), ("kilometer", "length", 1000),
    ("kilometers", "length", 1000), ("m", "length", 1), ("meter", "length", 1), ("meters", "length", 1),
    ("cm", "length", 1 / 100), ("centimeter", "length", 1 / 100), ("centimeters", "length", 1 / 100),
    ("%", "percent", 1), ("percent", "percent", 1), ("percentage", "percent", 1)]

/-- `sorted(…, key=len, reverse=True)` -/
def byLength (words : List String) : List String := words.insertionSort fun a b => b.length ≤ a.length

/-! ## Doubles -/

inductive Double
  | finite (q : ℚ)
  | infinite (negative : Bool)
  deriving DecidableEq

def Double.round (q : ℚ) : Double :=
  let d := double |q|
  if 2 ^ 1024 ≤ d then .infinite (q < 0) else .finite (if q < 0 then -d else d)

def Double.scale (factor : ℚ) : Double → Double
  | .finite q => .round (q * double factor)
  | .infinite negative => .infinite negative

/-- The distance is at most a double that is not negative. -/
def Double.within (distance bound : Double) : Bool :=
  match distance, bound with
  | .finite d, .finite b => |d| ≤ b
  | .finite _, .infinite _ => true
  | .infinite _, _ => false

/-- `math.isclose(a, b, rel_tol=1e-9, abs_tol=1e-12)` -/
def Double.isclose : Double → Double → Bool
  | .finite a, .finite b =>
    let diff := Double.round (b - a)
    a = b || diff.within ((Double.finite |b|).scale (1 / 10 ^ 9)) || diff.within ((Double.finite |a|).scale (1 / 10 ^ 9)) ||
      diff.within (.round (1 / 10 ^ 12))
  | a, b => a = b

variable (py : Unicode)

/-! ## Patterns -/

/-- `\s` -/
def space : Pattern := .char isSpace

/-- `\d` -/
def digit : Pattern := .char py.decimal

/-- `\b` -/
def boundary : Pattern := .look fun before behind => before.any py.word != behind.any py.word

/-- `[a-z]` -/
def letter : Pattern := .char fun c => 'a' ≤ c && c ≤ 'z'

def caseless (s : String) : Pattern := all (s.toList.map fun l => .char fun c => c.toLower == l)

/-- `\d{least,most}` -/
def digits (least most : ℕ) : Pattern := .repeated (digit py) least (some most)

/-- `[-+]?\d+(?:[.,]\d+)*` -/
def numeral : Pattern :=
  all [opt (oneOf "-+"), plus (digit py), star (.seq (oneOf ".,") (plus (digit py)))]

/-- `[a-z]+(?:'[a-z]+)?|[-+]?\d+(?:[.,]\d+)*|%` -/
def tokenPattern : Pattern :=
  any [.seq (plus letter) (opt (.seq (lit '\'') (plus letter))), numeral py, lit '%']

/-- `(?<=[.!?;])\s+|[\r\n]+` -/
def sentencePattern : Pattern :=
  .alt (.seq (.look fun before _ => before.any (".!?;".toList.contains ·)) (plus space)) (plus (oneOf "\r\n"))

/-- `\b(\d{4})[-\/]([01]?\d)[-\/]([0-3]?\d)\b` -/
def isoDatePattern : Pattern :=
  all [boundary py, .group 1 (digits py 4 4), oneOf "-/", .group 2 (.seq (opt (oneOf "01")) (digit py)), oneOf "-/",
    .group 3 (.seq (opt (.char fun c => '0' ≤ c && c ≤ '3')) (digit py)), boundary py]

def monthPattern : Pattern := any ((byLength (months.map Prod.fst)).map word)

/-- `(?:st|nd|rd|th)?` -/
def ordinalPattern : Pattern := opt (any [word "st", word "nd", word "rd", word "th"])

def monthDayPattern : Pattern :=
  all [boundary py, .group 1 monthPattern, opt (lit '.'), plus space, .group 2 (digits py 1 2), ordinalPattern,
    opt (lit ','), plus space, .group 3 (digits py 4 4), boundary py]

def dayMonthPattern : Pattern :=
  all [boundary py, .group 1 (digits py 1 2), ordinalPattern, plus space, .group 2 monthPattern, opt (lit '.'),
    plus space, .group 3 (digits py 4 4), boundary py]

def unitPattern : Pattern := any ((byLength (unitAliases.map Prod.fst)).map word)

/-- `(?<![\w.])([-+]?\d+(?:[.,]\d+)*)\s*({units})?(?![a-zA-Z])` -/
def quantityPattern : Pattern :=
  all [.look fun before _ => !before.any fun c => py.word c || c == '.', .group 1 (numeral py), star space,
    opt (.group 2 unitPattern),
    .look fun _ behind => !behind.any fun c => ('a' ≤ c && c ≤ 'z') || ('A' ≤ c && c ≤ 'Z')]

/-- `\b\d+(?:\.\d+){1,3}\b` -/
def versionPattern : Pattern :=
  all [boundary py, plus (digit py), .repeated (.seq (lit '.') (plus (digit py))) 1 (some 3), boundary py]

/-- `\b(?:rfc|pep)\s*[-#]?(\d{2,6})\b`, regardless of case -/
def claimIdentifierPattern : Pattern :=
  all [boundary py, any [caseless "rfc", caseless "pep"], star space, opt (oneOf "-#"), .group 1 (digits py 2 6),
    boundary py]

/-- `(?:rfc|pep)[-\/]?(\d{2,6})\b`, regardless of case -/
def urlIdentifierPattern : Pattern :=
  all [any [caseless "rfc", caseless "pep"], opt (oneOf "-/"), .group 1 (digits py 2 6), boundary py]

/-- The first pattern of `restricted_content_reason` -/
def gatePattern : Pattern :=
  .seq (boundary py) (any [
    all [word "subscriber", oneOf "- ", any [word "exclusive", word "only"], word " content"],
    .seq (word "subscription required to ") (any [word "read", word "view"]),
    .seq (word "subscribe to ")
      (any [word "continue reading", all [word "read ", opt (word "the "), word "full"]]),
    all [word "sign in to ", any [word "read", word "view"], word " ", opt (word "the "), word "full"]])

/-- The second pattern of `restricted_content_reason` -/
def offerPattern : Pattern :=
  all [boundary py, any [word "log in for full access", .seq (word "sign in to ") (any [word "read", word "view"]),
    word "subscribe to", .seq (word "subscription ") (any [word "provides", word "is required"]),
    all [word "purchase ", opt (word "a "), word "subscription"]], boundary py]

/-! ## Reading a text -/

def normalise (value : Text) : Text :=
  py.lower (stripChars (sub (plus space) [' '] ((py.nfkc value).map fun c => if c = '−' then '-' else c)))

def tokens (value : Text) : List Text := findall (tokenPattern py) (normalise py value)

def meaningful (value : Text) : List Text := (tokens py value).filter (· ∉ stopwords)

/-- `" ".join(…)` -/
def join (words : List Text) : Text := [' '].intercalate words

/-- The chunks of a block of many words: `chunk` is the one at hand. -/
def chunks (chunk : Text) : List Text → List Text
  | [] => if chunk = [] then [] else [chunk]
  | word :: rest =>
    if chunk ≠ [] ∧ chunk.length + word.length + 1 > 2000 then chunk :: chunks word rest
    else chunks (if chunk = [] then word else chunk ++ ' ' :: word) rest

/-- The sentences of a piece between two separators -/
def pieceSentences (piece : Text) : List Text :=
  let item := stripChars piece
  if item = [] then []
  else if item.length ≤ 2000 then [item]
  else chunks [] ((item.splitOnP isSpace).filter (· ≠ []))

def sentences (value : Text) : List Text := (split sentencePattern (normalise py value)).flatMap pieceSentences

/-- `int(…)` of decimal digits -/
def int (s : Text) : ℕ := s.foldl (fun n c => 10 * n + py.value c) 0

def dateOf (m : Match) (year day : ℕ) (month : Text → Option ℕ) (group : ℕ) : Option Date := do
  Date.mk? (int py (← m.group year)) (← month (← m.group group)) (int py (← m.group day))

def monthNumber (name : Text) : Option ℕ := (months.find? (·.1.toList = name)).map Prod.snd

def dateKeys (value : Text) : List Date :=
  let text := normalise py value
  (finditer (isoDatePattern py) text).filterMap (fun m => dateOf py m 1 3 (fun s => some (int py s)) 2) ++
    (finditer (monthDayPattern py) text).filterMap (fun m => dateOf py m 3 2 monthNumber 1) ++
    (finditer (dayMonthPattern py) text).filterMap fun m => dateOf py m 3 1 monthNumber 2

/-- `float(…)` of a numeral without its commas; more than one point is refused. -/
def float (raw : Text) : Option Double :=
  let negative := raw.head? = some '-'
  let body := if raw.head?.any ("-+".toList.contains ·) then raw.tail else raw
  match body.splitOn '.' with
  | [whole] => some (.round ((if negative then -1 else 1) * int py whole))
  | [whole, decimals] =>
    some (.round ((if negative then -1 else 1) * (int py (whole ++ decimals) / 10 ^ decimals.length)))
  | _ => none

/-- A quantity: the number in the unit of its dimension, the dimension, and the unit as written -/
structure Quantity where
  number : Double
  dimension : String
  unit : Text
  deriving DecidableEq

def quantityOf (m : Match) : Option Quantity := do
  let number ← float py ((← m.group 1).filter (· ≠ ','))
  let unit := py.lower ((m.group 2).getD [])
  match unitAliases.find? (·.1.toList = unit) with
  | some (_, dimension, factor) => some ⟨number.scale factor, dimension, unit⟩
  | none => some ⟨number, if unit = [] then "number" else String.ofList unit, unit⟩

def quantities (value : Text) : List Quantity :=
  (finditer (quantityPattern py) (normalise py value)).filterMap (quantityOf py)

def quantityEqual (left right : Quantity) : Bool :=
  left.dimension = right.dimension && left.number.isclose right.number

def versions (value : Text) : List Text := findall (versionPattern py) value

def negated (value : Text) : Bool := (tokens py value).any (· ∈ negations)

def restrictedContentReason (text : Text) : Option String :=
  let normalized := py.casefold (sub (plus space) [' '] text)
  let gate := search (gatePattern py) normalized
  if gate.any fun m => (search (offerPattern py) ((normalized.take (m.stop + 700)).drop m.start)).isSome then
    some ("restricted_source_content: full article requires subscription/login; find an alternate public first-party " ++
      "policy, documentation or advisory. Do not use the title/teaser as proof of hidden content.")
  else if (["access denied", "verify you are human", "just a moment"].any fun s => s.toList.isPrefixOf normalized) &&
      normalized.length < 2000 then
    some ("restricted_source_content: access/bot challenge returned instead of the requested article; find an " ++
      "alternate public first-party source.")
  else none

/-! ## The judgment -/

/-- `claim_terms`, of a normalised claim -/
def claimTerms (claim : Text) : List Text :=
  (meaningful py claim).filter fun item =>
    item ∉ negations && !fullmatch (.alt (numeral py) (lit '%')) item && item ∉ unitAliases.map (·.1.toList)

def windowsAt (sentences : List Text) (i : ℕ) : List Text :=
  (([1, 2, 3, 4].filter fun width => i + width ≤ sentences.length).map fun width =>
    join ((sentences.drop i).take width)).filter (·.length ≤ 8000)

def windows (sentences : List Text) : List Text := (List.range sentences.length).flatMap (windowsAt sentences)

/-- `anchor`: the first sentence with the most terms of the claim -/
def anchor (terms : List Text) (passage : Text) : Option Text :=
  (sentences py passage).argmax fun item => (terms.dedup.filter (· ∈ tokens py item)).length

def lexicalMissing (claim : Text) (urlTokens : List Text) (passage : Text) : List Text :=
  let missing := (claimTerms py claim).filter fun term => term ∉ tokens py passage ++ urlTokens
  if missing = [] then []
  else if (dateKeys py claim).any (· ∈ dateKeys py passage) &&
      missing.all fun term => term ∈ dateContextWords || term ∈ months.map (·.1.toList) then []
  else missing

/-- The dates that stand between the version and the next one, in a list of the matches of versions -/
def releaseDates (passage version : Text) : List Match → List Date
  | [] => []
  | m :: rest =>
    let nextStart := (rest.head?.map Match.start).getD passage.length
    (if m.text = version then dateKeys py ((passage.take nextStart).drop m.stop) else []) ++
      releaseDates passage version rest

def releaseDateMismatch (claim passage : Text) : Bool :=
  match (versions py claim).dedup with
  | [version] =>
    dateKeys py claim ≠ [] && "release".toList ∈ claimTerms py claim &&
      !(dateKeys py claim).all fun d => d ∈ releaseDates py passage version (finditer (versionPattern py) passage)
  | _ => false

/-- `best_reason` and `refuted_reason` -/
structure Reasons where
  best : String := "no_single_passage_support"
  refuted : String := ""

/-- How the loop goes on after a window: with these reasons, or with a judgment -/
inductive Step
  | next (reasons : Reasons)
  | done (state : ClaimState) (reason : String)

/-- One window; nothing if an exception is raised, since there is no sentence -/
def judgeWindow (claim : Text) (urlTokens : List Text) (reasons : Reasons) (passage : Text) : Option Step :=
  let missing := lexicalMissing py claim urlTokens passage
  if missing ≠ [] then
    some (.next { reasons with best := "missing_terms:" ++ String.ofList ([','].intercalate (missing.take 5)) })
  else if ¬ versions py claim ⊆ versions py passage then some (.next { reasons with best := "version_missing" })
  else if releaseDateMismatch py claim passage then some (.next { reasons with best := "release_date_mismatch" })
  else if claim.rdropWhile (· = '.') = passage.rdropWhile (· = '.') then
    some (.done .supported "verbatim_bounded_passage")
  else (anchor py (claimTerms py claim) passage).map fun sentence =>
    if negated py claim ≠ negated py sentence then .next { reasons with refuted := "negation_conflict" }
    else if (quantities py claim).any fun q => !(quantities py passage).any (quantityEqual q) then
      if (quantities py claim).any fun q => (quantities py passage).any (·.dimension = q.dimension) then
        .next { reasons with refuted := "quantity_conflict" }
      else .next { reasons with best := "quantity_missing" }
    else if (tokens py claim).any (· ∈ causal) && !(tokens py passage).any (· ∈ causal) then
      .done .insufficient "causal_relation_not_stated"
    else .done .supported "structured_passage_match"

/-- The loops over the windows -/
def judgeWindows (claim : Text) (urlTokens : List Text) : Reasons → List Text → Option (ClaimState × String)
  | reasons, [] =>
    some (if reasons.refuted ≠ "" then (.refuted, reasons.refuted) else (.insufficient, reasons.best))
  | reasons, passage :: rest =>
    match judgeWindow py claim urlTokens reasons passage with
    | none => none
    | some (.done state reason) => some (state, reason)
    | some (.next reasons) => judgeWindows claim urlTokens reasons rest

def identified (claim url : Text) : Bool :=
  match (search (claimIdentifierPattern py) claim).bind (·.group 1) with
  | some identifier => (search (urlIdentifierPattern py) url).any fun m => m.group 1 = some identifier
  | none => false

/-- `source_sentences`, of a normalised text -/
def sourceSentences (source : Text) : List Text :=
  if sentences py source = [] then [source] else sentences py source

/-- The state and the reason of `judge` -/
def judgeState (record : EvidenceRecord) (claimText : Text) (requireFetched : Bool) : Option (ClaimState × String) :=
  if requireFetched ∧ record.kind = .searchSnippet then some (.insufficient, "snippet_is_discovery_only")
  else if record.kind = .fetchedPassage ∧
      (["http://", "https://"].any fun s => s.toList.isPrefixOf record.canonicalUrl) ∧
      (restrictedContentReason py record.text).isSome then
    some (.insufficient, "restricted_source_content")
  else
    let source := normalise py record.text
    let claim := normalise py claimText
    if source = [] then some (.insufficient, "empty_evidence")
    else if record.kind = .imageOcr ∧ record.confidence < 8 / 10 then some (.insufficient, "uncertain_ocr")
    else if meaningful py claim = [] then some (.insufficient, "empty_meaningful_claim")
    else if record.kind ≠ .searchSnippet ∧ identified py claim record.canonicalUrl ∧
        (claimTerms py claim).length ≤ 10 ∧ ∀ term ∈ claimTerms py claim, term ∈ tokens py source then
      some (.supported, "identifier_matched_document")
    else judgeWindows py claim (tokens py record.canonicalUrl) {} (windows (sourceSentences py source))

/-- `judge`, of the record that has this id; nothing if an exception is raised -/
def judge (records : List EvidenceRecord) (evidenceId : String) (claimText : Text) (requireFetched : Bool) :
    Option ClaimJudgment := do
  let record ← records.find? (·.id = evidenceId)
  let (state, reason) ← judgeState py record claimText requireFetched
  some ⟨state, reason, evidenceId, record.textSha256⟩

/-! ## What supports a claim -/

def IsWindow (sentences : List Text) (passage : Text) : Prop :=
  ∃ i width, 1 ≤ width ∧ width ≤ 4 ∧ i + width ≤ sentences.length ∧ passage = join ((sentences.drop i).take width)

/-- The passage has every quantity and every version of the claim, and its sentence with the most terms of the claim
is negated just if the claim is. -/
structure Matches (claim passage : Text) : Prop where
  quantities : ∀ q ∈ quantities py claim, ∃ q' ∈ Evidence.quantities py passage, quantityEqual q q'
  versions : ∀ v ∈ versions py claim, v ∈ Evidence.versions py passage
  polarity : ∃ sentence ∈ anchor py (claimTerms py claim) passage, negated py sentence = negated py claim

/-- The passage is the claim, but for periods at the end, or matches it. -/
def Supports (claim passage : Text) : Prop :=
  passage.rdropWhile (· = '.') = claim.rdropWhile (· = '.') ∨ Matches py claim passage

def WindowSupports (record : EvidenceRecord) (claimText : Text) : Prop :=
  ∃ passage, IsWindow (sourceSentences py (normalise py record.text)) passage ∧
    Supports py (normalise py claimText) passage

/-- The record is a document whose URL names the RFC or PEP of the claim, the claim has ten terms at most, and all
of them occur in the document. -/
structure IdentifiedDocument (record : EvidenceRecord) (claimText : Text) : Prop where
  kind : record.kind ≠ .searchSnippet
  identifier : identified py (normalise py claimText) record.canonicalUrl
  few : (claimTerms py (normalise py claimText)).length ≤ 10
  terms : ∀ term ∈ claimTerms py (normalise py claimText), term ∈ tokens py (normalise py record.text)

variable {py}

theorem isWindow_of_mem {sentences : List Text} {passage : Text} (h : passage ∈ windows sentences) :
    IsWindow sentences passage := by
  obtain ⟨i, -, hat⟩ := List.mem_flatMap.mp h
  obtain ⟨hmap, -⟩ := List.mem_filter.mp hat
  obtain ⟨width, hwidth, rfl⟩ := List.mem_map.mp hmap
  obtain ⟨hmem, hle⟩ := List.mem_filter.mp hwidth
  have hbounds : 1 ≤ width ∧ width ≤ 4 := by
    simp only [List.mem_cons, List.not_mem_nil, or_false] at hmem
    omega
  exact ⟨i, width, hbounds.1, hbounds.2, of_decide_eq_true hle, rfl⟩

/-- **One window.** It ends the loop with support only if it supports the claim. -/
theorem supports_of_judgeWindow {claim passage : Text} {urlTokens : List Text} {reasons : Reasons} {reason : String}
    (h : judgeWindow py claim urlTokens reasons passage = some (.done .supported reason)) :
    Supports py claim passage := by
  unfold judgeWindow at h
  dsimp only at h
  by_cases hmissing : lexicalMissing py claim urlTokens passage ≠ []
  · rw [if_pos hmissing] at h
    cases h
  rw [if_neg hmissing] at h
  by_cases hversions : ¬ versions py claim ⊆ versions py passage
  · rw [if_pos hversions] at h
    cases h
  rw [if_neg hversions] at h
  by_cases hrelease : releaseDateMismatch py claim passage
  · rw [if_pos hrelease] at h
    cases h
  rw [if_neg hrelease] at h
  by_cases hverbatim : claim.rdropWhile (· = '.') = passage.rdropWhile (· = '.')
  · exact Or.inl hverbatim.symm
  rw [if_neg hverbatim] at h
  obtain ⟨sentence, hanchor, hstep⟩ := Option.map_eq_some_iff.mp h
  by_cases hpolarity : negated py claim ≠ negated py sentence
  · rw [if_pos hpolarity] at hstep
    cases hstep
  rw [if_neg hpolarity] at hstep
  by_cases hquantities : (quantities py claim).any fun q => !(quantities py passage).any (quantityEqual q)
  · rw [if_pos hquantities] at hstep
    split_ifs at hstep
  · refine Or.inr ⟨fun q hq => ?_, fun v hv => not_not.mp hversions hv, sentence, hanchor, ?_⟩
    · by_contra hno
      refine hquantities (List.any_eq_true.mpr ⟨q, hq, ?_⟩)
      simpa using hno
    · exact (not_not.mp hpolarity).symm

/-- **The loops over the windows.** -/
theorem supports_of_judgeWindows {claim : Text} {urlTokens : List Text} {reasons : Reasons} {passages : List Text}
    {reason : String} (h : judgeWindows py claim urlTokens reasons passages = some (.supported, reason)) :
    ∃ passage ∈ passages, Supports py claim passage := by
  induction passages generalizing reasons with
  | nil =>
    rw [judgeWindows] at h
    split_ifs at h <;> cases h
  | cons passage rest ih =>
    rw [judgeWindows] at h
    cases hstep : judgeWindow py claim urlTokens reasons passage with
    | none => simp [hstep] at h
    | some step =>
      cases step with
      | next reasons' =>
        rw [hstep] at h
        obtain ⟨found, hfound, hsupports⟩ := ih h
        exact ⟨found, List.mem_cons_of_mem _ hfound, hsupports⟩
      | done state why =>
        rw [hstep] at h
        obtain ⟨rfl, rfl⟩ := Prod.mk.inj (Option.some.inj h)
        exact ⟨passage, List.mem_cons_self, supports_of_judgeWindow hstep⟩

theorem judgeState_supported {record : EvidenceRecord} {claimText : Text} {requireFetched : Bool} {reason : String}
    (h : judgeState py record claimText requireFetched = some (.supported, reason)) :
    (WindowSupports py record claimText ∨ IdentifiedDocument py record claimText) ∧
      ¬ (requireFetched ∧ record.kind = .searchSnippet) := by
  unfold judgeState at h
  dsimp only at h
  split_ifs at h with hsnippet hrestricted hempty hocr hterms hidentified
  · simp at h
  · simp at h
  · simp at h
  · simp at h
  · simp at h
  · obtain ⟨hkind, hidentifier, hfew, hall⟩ := hidentified
    exact ⟨Or.inr ⟨hkind, hidentifier, hfew, hall⟩, hsnippet⟩
  · obtain ⟨passage, hmem, hsupports⟩ := supports_of_judgeWindows h
    exact ⟨Or.inl ⟨passage, isWindow_of_mem hmem, hsupports⟩, hsnippet⟩

section Example

def ascii : Unicode where
  nfkc := id
  lower := List.map Char.toLower
  casefold := List.map Char.toLower
  decimal := Char.isDigit
  value c := c.toNat - 48
  word c := c.isAlphanum || c == '_'

/-- A page on an RFC, whose number stands in its URL only -/
def page : EvidenceRecord where
  id := "e1"
  kind := .pdfPage
  canonicalUrl := "https://a.test/rfc9110".toList
  text := "This RFC: HTTP Semantics".toList

/-- A page with a sentence that is nearly the claim -/
def report : EvidenceRecord where
  id := "e2"
  kind := .pdfPage
  canonicalUrl := "https://b.test".toList
  text := "Rain is wet.".toList

end Example

end Smara.Research.Evidence
