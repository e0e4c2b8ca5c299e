import Mathlib
import Smara.Lib.Needle
import Smara.Lib.PyText

/-! # The patch engine

`SmaraPatchEngine.patch` finds the old text in a file by one of several strategies, replaces what it has found
from the back to the front, and writes the file. Where the old text occurs as it is, `_find_exact` collects the
occurrences, and takes one that begins within another one for one more; a replacement gets the newline at
the end of what it replaces. So the edit is `str.replace` exactly where no two occurrences overlap and the old
text does not end in a newline that the new one lacks (`patch_iff`). -/

namespace Smara.Files.PatchEngine

open Lib.Needle Lib.PyText

abbrev Text := List Char

abbrev Span := ℕ × ℕ

/-- What is not the engine's own: the regular expressions of `_find_whitespace_normalized`, and Python's
parser. -/
structure Host where
  whitespaceNormalized : Text → Text → List Span
  parses : Text → Bool

/-- The file as the call meets it: does it exist, what `read_text` gives if it can be read, is it a source file of
Python, and can it be written? -/
structure File where
  present : Bool
  content : Option Text
  python : Bool
  writable : Bool

inductive Strategy
  | exact | lineTrimmed | whitespaceNormalized | boundaryTrimmed | none
  deriving DecidableEq, Repr

/-- The answers of `patch`, without their texts; `applied` has written `updated`. -/
inductive Answer
  | notFound
  | unreadable
  | alreadyApplied
  | targetNotFound
  | ambiguous (occurrences : ℕ)
  | syntaxError
  | unwritable
  | applied (strategy : Strategy) (occurrences : ℕ) (updated : Text)
  deriving DecidableEq, Repr

/-- `needle in text` -/
def contains (needle text : Text) : Bool := !(positions needle text).isEmpty

def isAlreadyApplied (content old new : Text) : Bool :=
  if new = [] ∨ (stripChars new).length < 6 then false
  else if !contains new content then false
  else if old = new then true
  else !contains old content

/-- `text.find(needle, start)` -/
def find (needle text : Text) (start : ℕ) : Option ℕ := (positions needle text).find? (start ≤ ·)

theorem find_some {needle text : Text} {start p : ℕ} (h : find needle text start = some p) :
    p ∈ positions needle text ∧ start ≤ p :=
  ⟨List.mem_of_find?_eq_some h, by simpa using List.find?_some h⟩

/-- The loop of `_find_exact` -/
def findExactFrom (content old : Text) (start : ℕ) : List Span :=
  match _hfind : find old content start with
  | none => []
  | some p => (p, p + old.length) :: findExactFrom content old (p + 1)
termination_by content.length + 1 - start
decreasing_by
  obtain ⟨hmem, hle⟩ := find_some ‹_›
  have := (mem_positions.mp hmem).1
  omega

def findExact (content old : Text) : List Span := findExactFrom content old 0

def findLineTrimmed (content old : Text) : List Span :=
  let lines := splitLinesKeep content
  let stripped := ((splitLines old).map stripChars).filter (· ≠ [])
  if stripped = [] then []
  else (List.range (lines.length + 1 - stripped.length)).filterMap fun i =>
    if ((lines.drop i).take stripped.length).map stripChars = stripped then
      let start := ((lines.take i).map List.length).sum
      some (start, start + (((lines.drop i).take stripped.length).map List.length).sum)
    else none

def fuzzyFind (host : Host) (content old : Text) : List Span × Strategy :=
  if findExact content old ≠ [] then (findExact content old, .exact)
  else if findLineTrimmed content old ≠ [] then (findLineTrimmed content old, .lineTrimmed)
  else if host.whitespaceNormalized content old ≠ [] then
    (host.whitespaceNormalized content old, .whitespaceNormalized)
  else if stripChars old ≠ [] ∧ stripChars old ≠ old ∧ findExact content (stripChars old) ≠ [] then
    (findExact content (stripChars old), .boundaryTrimmed)
  else ([], .none)

/-- `text.endswith("\n")` -/
def endsNewline (text : Text) : Bool := text.getLast? = some '\n'

/-- The indentation that `_adapt_replacement` gives the new lines of a block found by its trimmed lines. -/
def indented (block new : Text) : Text :=
  let first := (splitLines block).headD []
  let indent := first.takeWhile isSpace
  let lines := splitLines new
  if indent ≠ [] ∧ (lines.filter (stripChars · ≠ [])).all (fun line => !indent.isPrefixOf line) then
    ['\n'].intercalate (lines.map fun line => if stripChars line ≠ [] then indent ++ line else line)
  else new

def adaptReplacement (original new : Text) (strategy : Strategy) (span : Span) : Text :=
  let block := (original.take span.2).drop span.1
  let repl := if strategy = .lineTrimmed then indented block new else new
  if endsNewline block ∧ ¬ endsNewline repl then repl ++ ['\n'] else repl

def replaceAt (original new : Text) (strategy : Strategy) (span : Span) (updated : Text) : Text :=
  updated.take span.1 ++ adaptReplacement original new strategy span ++ updated.drop span.2

def patch (host : Host) (file : File) (old new : Text) (replaceAll : Bool) : Answer :=
  if !file.present then .notFound
  else match file.content with
    | none => .unreadable
    | some original =>
      if isAlreadyApplied original old new then .alreadyApplied
      else
        let (found, strategy) := fuzzyFind host original old
        if found = [] then .targetNotFound
        else if 1 < found.length ∧ !replaceAll then .ambiguous found.length
        else
          let updated :=
            if replaceAll then found.foldr (replaceAt original new strategy) original
            else (found.take 1).foldr (replaceAt original new strategy) original
          if file.python ∧ !host.parses updated then .syntaxError
          else if !file.writable then .unwritable
          else .applied strategy found.length updated

/-! ## Exact matches -/

def spanAt (old : Text) (p : ℕ) : Span := (p, p + old.length)

/-- What an occurrence of `old` is replaced by. -/
def adapted (old new : Text) : Text := if endsNewline old ∧ ¬ endsNewline new then new ++ ['\n'] else new

theorem filter_find {l : List ℕ} (hsorted : l.Pairwise (· < ·)) {start p : ℕ} (h : l.find? (start ≤ ·) = some p) :
    l.filter (start ≤ ·) = p :: l.filter (p + 1 ≤ ·) := by
  induction l with
  | nil => cases h
  | cons q qs ih =>
    obtain ⟨hlt, hsorted⟩ := List.pairwise_cons.mp hsorted
    by_cases hq : start ≤ q
    · rw [List.find?_cons_of_pos (by simpa using hq)] at h
      obtain rfl := Option.some.inj h
      have hall : ∀ r ∈ qs, decide (start ≤ r) = decide (q + 1 ≤ r) := by
        intro r hr
        have := hlt r hr
        simp only [decide_eq_decide]
        omega
      rw [List.filter_cons_of_pos (by simpa using hq), List.filter_cons_of_neg (by simp), List.filter_congr hall]
    · rw [List.find?_cons_of_neg (by simpa using hq)] at h
      have hp := hlt p (List.mem_of_find?_eq_some h)
      rw [List.filter_cons_of_neg (by simpa using hq), List.filter_cons_of_neg (by simp; omega)]
      exact ih hsorted h

theorem findExactFrom_eq (content old : Text) (start : ℕ) :
    findExactFrom content old start = ((positions old content).filter (start ≤ ·)).map (spanAt old) := by
  induction start using findExactFrom.induct content old with
  | case1 start hfind =>
    have hnone := List.find?_eq_none.mp hfind
    rw [findExactFrom, List.filter_eq_nil_iff.mpr hnone]
    split
    · rfl
    · rename_i hsome
      rw [hfind] at hsome
      cases hsome
  | case2 start p hfind ih =>
    rw [findExactFrom, filter_find positions_pairwise hfind, List.map_cons, ← ih]
    split
    · rename_i hnone
      rw [hfind] at hnone
      cases hnone
    · rename_i hsome
      rw [hfind] at hsome
      obtain rfl := Option.some.inj hsome
      rfl

theorem findExact_eq (content old : Text) : findExact content old = (positions old content).map (spanAt old) := by
  rw [findExact, findExactFrom_eq]
  simp

theorem findExact_ne_nil {content old : Text} (h : old <:+: content) : findExact content old ≠ [] := by
  obtain ⟨p, hp⟩ := occurs_iff.mpr h
  rw [findExact_eq]
  exact List.ne_nil_of_mem (List.mem_map_of_mem hp)

theorem adaptReplacement_exact {original old : Text} {p : ℕ} (h : p ∈ positions old original) (new : Text) :
    adaptReplacement original new .exact (spanAt old p) = adapted old new := by
  have hblock : (original.take (p + old.length)).drop p = old := by
    rw [List.drop_take, Nat.add_sub_cancel_left]
    exact (List.prefix_iff_eq_take.mp (mem_positions.mp h).2).symm
  simp [adaptReplacement, adapted, spanAt, hblock]

theorem foldr_replaceAt {original old : Text} (new : Text) {places : List ℕ}
    (h : places ⊆ positions old original) :
    (places.map (spanAt old)).foldr (replaceAt original new .exact) original =
      splice old.length (adapted old new) original places := by
  induction places with
  | nil => rfl
  | cons p places ih =>
    obtain ⟨hp, hrest⟩ := List.cons_subset.mp h
    rw [List.map_cons, List.foldr_cons, ih hrest, replaceAt, adaptReplacement_exact hp]
    rfl

def Apart (spans : List Span) : Prop := spans.Pairwise fun a b => a.2 ≤ b.1

theorem apart_findExact_iff {content old : Text} : Apart (findExact content old) ↔ NoOverlap old content := by
  rw [Apart, findExact_eq, List.pairwise_map]
  constructor
  · intro h p hp q hq hlt
    have : Std.Symm fun a b => a + old.length ≤ b ∨ b + old.length ≤ a := ⟨fun a b => Or.symm⟩
    have hapart : (positions old content).Pairwise fun a b => a + old.length ≤ b ∨ b + old.length ≤ a :=
      h.imp Or.inl
    have := hapart.forall hp hq hlt.ne
    omega
  · intro h
    exact positions_pairwise.imp_of_mem fun hp hq hlt => h _ hp _ hq hlt

theorem patch_applied {host : Host} {file : File} {original old new : Text} {replaceAll : Bool}
    (hcontent : file.content = some original) (hoccurs : old <:+: original) {strategy : Strategy}
    {occurrences : ℕ} {updated : Text}
    (h : patch host file old new replaceAll = .applied strategy occurrences updated) :
    updated = splice old.length (adapted old new) original (positions old original) ∧
      (replaceAll = false → (positions old original).length ≤ 1) := by
  have hfound := findExact_ne_nil hoccurs
  simp only [patch, hcontent, fuzzyFind, if_pos hfound] at h
  split_ifs at h with hpresent hdone hmany hall hsyntax hwrite hsyntax hwrite <;>
    simp only [Answer.applied.injEq] at h
  · obtain ⟨-, -, rfl⟩ := h
    rw [findExact_eq, foldr_replaceAt new (List.Subset.refl _)]
    exact ⟨rfl, fun hno => by rw [hall] at hno; cases hno⟩
  · obtain ⟨-, -, rfl⟩ := h
    have hone : (findExact original old).length ≤ 1 := by
      by_contra hlt
      exact hmany ⟨by omega, by simpa using hall⟩
    rw [List.take_of_length_le hone, findExact_eq, foldr_replaceAt new (List.Subset.refl _)]
    exact ⟨rfl, fun _ => by simpa [findExact_eq] using hone⟩

/-- **What an edit means.** A successful edit of a text in which `old` occurs writes `str.replace` of it, and
replaces no place twice, exactly when no two occurrences overlap and `old` does not end in a newline that
`new` lacks. -/
theorem patch_iff {host : Host} {file : File} {original old new : Text} {replaceAll : Bool} (hold : old ≠ [])
    (hcontent : file.content = some original) (hoccurs : old <:+: original) {strategy : Strategy}
    {occurrences : ℕ} {updated : Text}
    (h : patch host file old new replaceAll = .applied strategy occurrences updated) :
    updated = replaceFrom old new (if replaceAll then none else some 1) 0 original ∧
        Apart (fuzzyFind host original old).1 ↔
      NoOverlap old original ∧ (endsNewline old → endsNewline new) := by
  obtain ⟨rfl, hsingle⟩ := patch_applied hcontent hoccurs h
  have hfound := findExact_ne_nil hoccurs
  have hspans : (fuzzyFind host original old).1 = findExact original old := by
    rw [fuzzyFind, if_pos hfound]
  rw [hspans, apart_findExact_iff, and_comm]
  refine and_congr_right fun hno => ?_
  have hsplice : splice old.length (adapted old new) original (positions old original) =
      replaceFrom old (adapted old new) (if replaceAll then none else some 1) 0 original := by
    cases replaceAll with
    | true => exact splice_positions hold hno
    | false => exact splice_positions_single hold (hsingle rfl)
  rw [hsplice]
  constructor
  · intro heq hends
    by_contra hnew
    have hlonger : adapted old new = new ++ ['\n'] := if_pos ⟨hends, hnew⟩
    have hlt : (replaceFrom old new (if replaceAll then none else some 1) 0 original).length <
        (replaceFrom old (adapted old new) (if replaceAll then none else some 1) 0 original).length :=
      length_replaceFrom_lt (by simp [hlonger]) (by split_ifs <;> simp) hold (occurs_iff.mpr hoccurs)
    rw [heq] at hlt
    exact hlt.false
  · intro hends
    have hsame : adapted old new = new := if_neg fun hand => hand.2 (hends hand.1)
    rw [hsame]

/-- Without overlaps: both occurrences in `abab` are replaced. -/
theorem patch_iff_apart :
    ("cc".toList = replaceFrom "ab".toList "c".toList (if true then none else some 1) 0 "abab".toList ∧
        Apart (fuzzyFind ⟨fun _ _ => [], fun _ => true⟩ "abab".toList "ab".toList).1) ↔
      NoOverlap "ab".toList "abab".toList ∧ (endsNewline "ab".toList → endsNewline "c".toList) := by
  have happlied : patch ⟨fun _ _ => [], fun _ => true⟩ ⟨true, some "abab".toList, false, true⟩ "ab".toList
      "c".toList true = .applied .exact 2 "cc".toList := by decide_cbv
  exact patch_iff (by decide) rfl (by decide) happlied

/-- A successful edit of a text in which the old text occurs is `str.replace`. -/
def IsReplace (replaceAll : Bool) : Prop :=
  ∀ (host : Host) (file : File) (original old new : Text) (strategy : Strategy) (occurrences : ℕ)
    (updated : Text), old ≠ [] → file.content = some original → old <:+: original →
    patch host file old new replaceAll = .applied strategy occurrences updated →
    updated = replaceFrom old new (if replaceAll then none else some 1) 0 original

/-- Both occurrences of `aa` in `aaa` are replaced, the second one first; and the newline that the old text ends
in is not deleted with it. -/
theorem not_isReplace : ¬ IsReplace true ∧ ¬ IsReplace false := by
  let host : Host := ⟨fun _ _ => [], fun _ => true⟩
  constructor
  · intro h
    have := h host ⟨true, some "aaa".toList, false, true⟩ "aaa".toList "aa".toList "b".toList .exact 2 "b".toList
      (by decide) rfl (by decide) (by decide_cbv)
    revert this
    decide
  · intro h
    have := h host ⟨true, some "a\nb\n".toList, false, true⟩ "a\nb\n".toList "a\n".toList [] .exact 1
      "\nb\n".toList (by decide) rfl (by decide) (by decide_cbv)
    revert this
    decide

end Smara.Files.PatchEngine
