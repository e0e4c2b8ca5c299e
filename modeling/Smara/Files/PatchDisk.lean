import Smara.Files.PatchEngine
import Smara.Lib.Lines
import Smara.Lib.Utf8

/-! # Patches of a file on disk

`patch` reads the bytes of a file as a text, with each kind of line end as LF, and writes a text with the line ends of
the system.

* `readText`, `writeText`: `read_text` and `write_text`.
* `patchDisk`: the answer of `patch`, and the file that it leaves.
* `patch_applied_iff`: when it writes, and what (`edited`).
* `resend_iff`: **when a patch that is sent again does nothing**. -/

namespace Smara.Files.PatchEngine

open Lib.PyText Lib.Needle Lib.Utf8

/-! ### Reading and writing -/

/-- Each line end as LF. -/
def universal : Text → Text
  | '\r' :: '\n' :: s => '\n' :: universal s
  | '\r' :: s => '\n' :: universal s
  | c :: s => c :: universal s
  | [] => []

/-- What LF is written as. -/
inductive System
  | posix | windows
  deriving DecidableEq

def System.linesep : System → Text
  | .posix => ['\n']
  | .windows => ['\r', '\n']

def System.expand (sys : System) (text : Text) : Text := text.flatMap fun c => if c = '\n' then sys.linesep else [c]

/-- `read_text(encoding="utf-8", errors="replace")` -/
def readText (bytes : List UInt8) : Text := universal (decode bytes)

/-- `write_text(text, encoding="utf-8")` -/
def writeText (sys : System) (text : Text) : List UInt8 := encode (sys.expand text)

/-- The file of a call: is it there, can it be read, is it a source file of Python, can it be opened for writing, and its
bytes. -/
structure Disk where
  present : Bool
  readable : Bool
  python : Bool
  writable : Bool
  bytes : List UInt8
  deriving DecidableEq

/-- The file as `patch` meets it. -/
def Disk.file (d : Disk) : File :=
  ⟨d.present, if d.readable then some (readText d.bytes) else none, d.python, d.writable⟩

/-- **A call of `patch`**: its answer, and the file that it leaves. -/
def patchDisk (host : Host) (sys : System) (d : Disk) (old new : Text) (replaceAll : Bool) : Answer × Disk :=
  match patch host d.file old new replaceAll with
  | .applied strategy occurrences updated =>
    (.applied strategy occurrences updated, { d with bytes := writeText sys updated })
  | answer => (answer, d)

/-! ### What is written -/

def chosen (host : Host) (original old : Text) (replaceAll : Bool) : List Span :=
  if replaceAll then (fuzzyFind host original old).1 else (fuzzyFind host original old).1.take 1

def edited (host : Host) (original old new : Text) (replaceAll : Bool) : Text :=
  (chosen host original old replaceAll).foldr (replaceAt original new (fuzzyFind host original old).2) original

/-- The edit is refused: there are several matches and one is to be replaced, or the edited text is no Python. -/
def Refused (host : Host) (python : Bool) (original old new : Text) (replaceAll : Bool) : Prop :=
  (1 < (fuzzyFind host original old).1.length ∧ replaceAll = false) ∨
    python ∧ host.parses (edited host original old new replaceAll) = false

variable {host : Host} {sys : System} {d : Disk} {original old new : Text} {replaceAll : Bool}
  {strategy : Strategy} {occurrences : ℕ} {updated : Text}

/-- **When `patch` writes, and what.** -/
theorem patch_applied_iff {file : File} : patch host file old new replaceAll = .applied strategy occurrences updated ↔
    file.present ∧ file.writable ∧ ∃ original, file.content = some original ∧ ¬ isAlreadyApplied original old new ∧
      (fuzzyFind host original old).1 ≠ [] ∧ ¬ Refused host file.python original old new replaceAll ∧
      strategy = (fuzzyFind host original old).2 ∧ occurrences = (fuzzyFind host original old).1.length ∧
      updated = edited host original old new replaceAll := by
  have hedited : ∀ original, edited host original old new replaceAll =
      if replaceAll then (fuzzyFind host original old).1.foldr
        (replaceAt original new (fuzzyFind host original old).2) original
      else ((fuzzyFind host original old).1.take 1).foldr
        (replaceAt original new (fuzzyFind host original old).2) original := by
    intro original
    unfold edited chosen
    split_ifs <;> rfl
  unfold patch
  by_cases hpresent : file.present
  swap
  · simp [hpresent]
  cases hcontent : file.content with
  | none => simp [hpresent]
  | some original =>
    simp only [hpresent, Bool.not_true, Bool.false_eq_true, if_false, ← hedited original]
    by_cases hdone : isAlreadyApplied original old new
    · simp [hdone]
    by_cases hfound : (fuzzyFind host original old).1 = []
    · simp [hdone, hfound]
    by_cases hmany : 1 < (fuzzyFind host original old).1.length ∧ replaceAll = false
    · refine iff_of_false (by simp [hdone, hfound, hmany.1, hmany.2]) ?_
      rintro ⟨-, -, _, ho, -, -, hok, -⟩
      obtain rfl := Option.some.inj ho
      exact hok (Or.inl hmany)
    by_cases hsyntax : file.python ∧ host.parses (edited host original old new replaceAll) = false
    · refine iff_of_false (by simp [hdone, hfound, hmany, hsyntax]) ?_
      rintro ⟨-, -, _, ho, -, -, hok, -⟩
      obtain rfl := Option.some.inj ho
      exact hok (Or.inr hsyntax)
    have hok : ¬ Refused host file.python original old new replaceAll := fun h => h.elim hmany hsyntax
    by_cases hwrite : file.writable
    · simp [hdone, hfound, hmany, hsyntax, hwrite, hok, @eq_comm _ strategy, @eq_comm _ occurrences, @eq_comm _ updated]
    · simp [hdone, hfound, hmany, hsyntax, hwrite]

theorem patchDisk_of_applied (h : patch host d.file old new replaceAll = .applied strategy occurrences updated) :
    patchDisk host sys d old new replaceAll =
      (.applied strategy occurrences updated, { d with bytes := writeText sys updated }) := by
  rw [patchDisk, h]

theorem patchDisk_fst : (patchDisk host sys d old new replaceAll).1 = patch host d.file old new replaceAll := by
  unfold patchDisk
  cases patch host d.file old new replaceAll <;> rfl

theorem patchDisk_snd (h : ∀ strategy occurrences updated,
    patch host d.file old new replaceAll ≠ .applied strategy occurrences updated) :
    (patchDisk host sys d old new replaceAll).2 = d := by
  unfold patchDisk
  cases hanswer : patch host d.file old new replaceAll with
  | applied strategy occurrences updated => exact absurd hanswer (h _ _ _)
  | _ => rfl

/-! ### Line ends -/

theorem universal_cons {c : Char} (h : c ≠ '\r') (s : Text) : universal (c :: s) = c :: universal s := by
  rw [universal]
  · rintro s rfl
    exact absurd rfl h
  · rintro rfl
    exact absurd rfl h

theorem no_cr_universal (s : Text) : '\r' ∉ universal s := by
  fun_induction universal s with
  | case1 s ih => simpa using ih
  | case2 s _ ih => simpa using ih
  | case3 c s _ hne ih =>
    rw [List.mem_cons, not_or]
    exact ⟨fun heq => hne heq.symm, ih⟩
  | case4 => simp

theorem universal_expand (sys : System) {t : Text} (h : '\r' ∉ t) : universal (sys.expand t) = t := by
  induction t with
  | nil => rfl
  | cons c t ih =>
    rw [List.mem_cons, not_or] at h
    rw [System.expand, List.flatMap_cons]
    by_cases hc : c = '\n'
    · subst hc
      cases sys with
      | posix => exact (universal_cons (by decide) _).trans (congrArg _ (ih h.2))
      | windows => exact congrArg ('\n' :: ·) (ih h.2)
    · rw [if_neg hc, List.singleton_append, universal_cons (Ne.symm h.1)]
      exact congrArg _ (ih h.2)

theorem readText_writeText (sys : System) (t : Text) : readText (writeText sys t) = universal (sys.expand t) := by
  rw [readText, writeText, decode_encode]

/-! ### The edited text -/

theorem mem_of_mem_intercalate {x c : Char} {lines : List Text} (h : c ∈ [x].intercalate lines) :
    c = x ∨ ∃ l ∈ lines, c ∈ l := by
  induction lines with
  | nil => cases h
  | cons l lines ih =>
    cases lines with
    | nil => exact Or.inr ⟨l, by simp, by simpa [List.intercalate] using h⟩
    | cons l' lines =>
      rw [List.intercalate_cons_cons, List.mem_append, List.mem_append, List.mem_singleton] at h
      rcases h with (h | h) | h
      · exact Or.inr ⟨l, by simp, h⟩
      · exact Or.inl h
      · exact (ih h).imp_right fun ⟨k, hk, hc⟩ => ⟨k, List.mem_cons_of_mem _ hk, hc⟩

theorem mem_of_mem_splitLines {s l : Text} {c : Char} (hl : l ∈ splitLines s) (hc : c ∈ l) : c ∈ s := by
  obtain ⟨line, hline, rfl⟩ := List.mem_map.mp hl
  rw [← flatten_splitLinesKeep s]
  refine List.mem_flatten.mpr ⟨line, hline, ?_⟩
  exact List.mem_reverse.mp ((List.dropWhile_sublist _).subset (List.mem_reverse.mp hc))

theorem mem_of_mem_indented {block : Text} {c : Char} (h : c ∈ indented block new) :
    c = '\n' ∨ c ∈ block ∨ c ∈ new := by
  unfold indented at h
  dsimp only at h
  split_ifs at h with hindent
  · rcases mem_of_mem_intercalate h with rfl | ⟨l, hl, hc⟩
    · exact Or.inl rfl
    · obtain ⟨line, hline, rfl⟩ := List.mem_map.mp hl
      have hnew : c ∈ line → c ∈ new := mem_of_mem_splitLines hline
      split_ifs at hc with hblank
      · rcases List.mem_append.mp hc with hc | hc
        · refine Or.inr (Or.inl ?_)
          cases hlines : splitLines block with
          | nil =>
            rw [hlines] at hc
            cases hc
          | cons first rest =>
            rw [hlines] at hc
            have hfirst : first ∈ splitLines block := by
              rw [hlines]
              exact List.mem_cons_self
            exact mem_of_mem_splitLines hfirst ((List.takeWhile_prefix _).subset hc)
        · exact Or.inr (Or.inr (hnew hc))
      · exact Or.inr (Or.inr (hnew hc))
  · exact Or.inr (Or.inr h)

theorem no_cr_adapted {span : Span} (horiginal : '\r' ∉ original) (hnew : '\r' ∉ new) :
    '\r' ∉ adaptReplacement original new strategy span := by
  have hblock : '\r' ∉ (original.take span.2).drop span.1 := fun h =>
    horiginal (List.mem_of_mem_take (List.mem_of_mem_drop h))
  have hindented : '\r' ∉ indented ((original.take span.2).drop span.1) new := by
    intro h
    rcases mem_of_mem_indented h with h | h | h
    · exact absurd h (by decide)
    · exact hblock h
    · exact hnew h
  unfold adaptReplacement
  dsimp only
  split_ifs <;> simp [hindented, hnew]

theorem no_cr_edited (horiginal : '\r' ∉ original) (hnew : '\r' ∉ new) :
    '\r' ∉ edited host original old new replaceAll := by
  unfold edited
  induction chosen host original old replaceAll with
  | nil => exact horiginal
  | cons span spans ih =>
    rw [List.foldr_cons, replaceAt, List.mem_append, List.mem_append]
    rintro ((h | h) | h)
    · exact ih (List.mem_of_mem_take h)
    · exact no_cr_adapted horiginal hnew h
    · exact ih (List.mem_of_mem_drop h)

theorem adapted_infix_edited {span : Span} {spans : List Span} (h : chosen host original old replaceAll = span :: spans) :
    adaptReplacement original new (fuzzyFind host original old).2 span <:+: edited host original old new replaceAll := by
  rw [edited, h, List.foldr_cons, replaceAt]
  exact ⟨_, _, rfl⟩

/-! ### The same patch again -/

theorem contains_iff {needle text : Text} : contains needle text = true ↔ needle <:+: text := by
  rw [← occurs_iff, contains]
  simp [List.eq_nil_iff_forall_not_mem]

theorem isAlreadyApplied_iff {content : Text} (hlen : 6 ≤ (stripChars new).length) :
    isAlreadyApplied content old new = true ↔ new <:+: content ∧ (old = new ∨ ¬ old <:+: content) := by
  have hne : ¬ (new = [] ∨ (stripChars new).length < 6) := by
    rintro (rfl | h)
    · exact absurd hlen (by decide)
    · omega
  have hcontains : contains new content = true ↔ new <:+: content := contains_iff
  have hcontains' : contains old content = true ↔ old <:+: content := contains_iff
  unfold isAlreadyApplied
  rw [if_neg hne]
  by_cases hnew : new <:+: content
  swap
  · simp [hnew, mt hcontains.mp hnew]
  by_cases heq : old = new
  · simp [hnew, hcontains.mpr hnew, heq]
  by_cases hold : old <:+: content
  · simp [hnew, hcontains.mpr hnew, heq, hold, hcontains'.mpr hold]
  · simp [hnew, hcontains.mpr hnew, heq, hold, mt hcontains'.mp hold]

/-- The answer says that the file has the edit. -/
def Answer.Succeeds : Answer → Prop
  | .alreadyApplied | .applied _ _ _ => True
  | _ => False

/-- **The call does nothing**: the file stays as it is, and the answer is that the edit is there, or an error. -/
structure DoesNothing (host : Host) (sys : System) (d : Disk) (old new : Text) (replaceAll : Bool) : Prop where
  unchanged : (patchDisk host sys d old new replaceAll).2 = d
  answer : ∀ strategy occurrences updated,
    (patchDisk host sys d old new replaceAll).1 ≠ .applied strategy occurrences updated

/-- The new text is in the edited text, and is read as it was written: it has no CR, and the replacement of the first
match has it as it is, not with its lines indented. -/
def Kept (host : Host) (original old new : Text) (replaceAll : Bool) : Prop :=
  '\r' ∉ new ∧ ∃ span spans, chosen host original old replaceAll = span :: spans ∧
    new <:+: adaptReplacement original new (fuzzyFind host original old).2 span

/-- **The condition** on the edited text. If it keeps the new text, then the old text must not occur in it, or be the new
text, or the next edit is refused. If not, then no strategy must find the old text in what is read, unless the indented
text has the new text nevertheless. -/
structure Settled (host : Host) (sys : System) (python : Bool) (original old new : Text) (replaceAll : Bool) : Prop where
  kept : Kept host original old new replaceAll →
    old = new ∨ ¬ old <:+: edited host original old new replaceAll ∨
      Refused host python (edited host original old new replaceAll) old new replaceAll
  changed : ¬ Kept host original old new replaceAll →
    ('\r' ∉ new ∧ new <:+: edited host original old new replaceAll ∧
        (old = new ∨ ¬ old <:+: edited host original old new replaceAll)) ∨
      (fuzzyFind host (universal (sys.expand (edited host original old new replaceAll))) old).1 = [] ∨
      Refused host python (universal (sys.expand (edited host original old new replaceAll))) old new replaceAll

theorem Kept.infix_edited (h : Kept host original old new replaceAll) :
    new <:+: edited host original old new replaceAll := by
  obtain ⟨-, span, spans, hchosen, hwithin⟩ := h
  exact hwithin.trans (adapted_infix_edited hchosen)

theorem fuzzyFind_ne_nil (h : old <:+: original) : (fuzzyFind host original old).1 ≠ [] := by
  have hfind := findExact_ne_nil h
  rwa [fuzzyFind, if_pos hfind]

theorem doesNothing_iff (hpresent : d.present) (hwritable : d.writable) (hreadable : d.readable) :
    DoesNothing host sys d old new replaceAll ↔ isAlreadyApplied (readText d.bytes) old new ∨
      (fuzzyFind host (readText d.bytes) old).1 = [] ∨ Refused host d.python (readText d.bytes) old new replaceAll := by
  have hcontent : d.file.content = some (readText d.bytes) := if_pos hreadable
  constructor
  · rintro ⟨-, hanswer⟩
    by_contra hnot
    simp only [not_or] at hnot
    refine hanswer (fuzzyFind host (readText d.bytes) old).2 (fuzzyFind host (readText d.bytes) old).1.length
      (edited host (readText d.bytes) old new replaceAll) ?_
    rw [patchDisk_fst]
    exact patch_applied_iff.mpr ⟨hpresent, hwritable, _, hcontent, hnot.1, hnot.2.1, hnot.2.2, rfl, rfl, rfl⟩
  · intro h
    have hanswer : ∀ strategy occurrences updated,
        patch host d.file old new replaceAll ≠ .applied strategy occurrences updated := by
      intro strategy occurrences updated happlied
      obtain ⟨-, -, original, horiginal, hdone, hfound, hok, -⟩ := patch_applied_iff.mp happlied
      obtain rfl := Option.some.inj (hcontent.symm.trans horiginal)
      rcases h with h | h | h
      · exact hdone h
      · exact hfound h
      · exact hok h
    refine ⟨patchDisk_snd hanswer, fun strategy occurrences updated => ?_⟩
    rw [patchDisk_fst]
    exact hanswer _ _ _

theorem patch_alreadyApplied {file : File} (h : patch host file old new replaceAll = .alreadyApplied) :
    ∃ original, file.content = some original ∧ isAlreadyApplied original old new := by
  unfold patch at h
  cases hcontent : file.content with
  | none =>
    rw [hcontent] at h
    dsimp only at h
    split_ifs at h
  | some original =>
    refine ⟨original, rfl, ?_⟩
    by_contra hnot
    rw [hcontent] at h
    dsimp only at h
    rw [if_neg hnot] at h
    split_ifs at h

theorem content_file (h : d.file.content = some original) : d.readable = true ∧ readText d.bytes = original := by
  unfold Disk.file at h
  dsimp only at h
  split_ifs at h with hreadable
  exact ⟨hreadable, Option.some.inj h⟩

theorem applied_iff_settled {python : Bool} (hlen : 6 ≤ (stripChars new).length) (horiginal : '\r' ∉ original) :
    Settled host sys python original old new replaceAll ↔
      isAlreadyApplied (universal (sys.expand (edited host original old new replaceAll))) old new ∨
        (fuzzyFind host (universal (sys.expand (edited host original old new replaceAll))) old).1 = [] ∨
        Refused host python (universal (sys.expand (edited host original old new replaceAll))) old new replaceAll := by
  have hread : '\r' ∉ new → universal (sys.expand (edited host original old new replaceAll)) =
      edited host original old new replaceAll := fun hnew => universal_expand sys (no_cr_edited horiginal hnew)
  rw [isAlreadyApplied_iff hlen]
  by_cases hkept : Kept host original old new replaceAll
  · rw [hread hkept.1]
    constructor
    · intro h
      rcases h.kept hkept with h | h | h
      · exact Or.inl ⟨hkept.infix_edited, Or.inl h⟩
      · exact Or.inl ⟨hkept.infix_edited, Or.inr h⟩
      · exact Or.inr (Or.inr h)
    · intro h
      refine ⟨fun _ => ?_, fun hnot => absurd hkept hnot⟩
      rcases h with h | h | h
      · exact h.2.imp_right Or.inl
      · exact Or.inr (Or.inl fun hold => fuzzyFind_ne_nil hold h)
      · exact Or.inr (Or.inr h)
  · constructor
    · intro h
      refine (h.changed hkept).imp_left fun hthere => ?_
      rw [hread hthere.1]
      exact hthere.2
    · intro h
      refine ⟨fun hyes => absurd hyes hkept, fun _ => h.imp_left fun hthere => ?_⟩
      have hnew : '\r' ∉ new := fun hcr => no_cr_universal _ (hthere.1.subset hcr)
      rw [hread hnew] at hthere
      exact ⟨hnew, hthere⟩

/-- **A patch that is sent again** does nothing if and only if the edit was there before the first call, or the edited
text is settled. -/
theorem resend_iff (host : Host) (sys : System) (d : Disk) (old new : Text) (replaceAll : Bool)
    (hlen : 6 ≤ (stripChars new).length) (hsuccess : (patchDisk host sys d old new replaceAll).1.Succeeds) :
    DoesNothing host sys (patchDisk host sys d old new replaceAll).2 old new replaceAll ↔
      isAlreadyApplied (readText d.bytes) old new ∨
        Settled host sys d.python (readText d.bytes) old new replaceAll := by
  by_cases hdone : patch host d.file old new replaceAll = .alreadyApplied
  · have hcall : patchDisk host sys d old new replaceAll = (.alreadyApplied, d) := by rw [patchDisk, hdone]
    have happlied : isAlreadyApplied (readText d.bytes) old new := by
      obtain ⟨original, horiginal, happlied⟩ := patch_alreadyApplied hdone
      rwa [(content_file horiginal).2]
    refine iff_of_true ?_ (Or.inl happlied)
    rw [hcall]
    refine ⟨by rw [hcall], fun _ _ _ => ?_⟩
    rw [hcall]
    exact Answer.noConfusion
  · obtain ⟨strategy, occurrences, updated, happlied⟩ : ∃ strategy occurrences updated,
        patch host d.file old new replaceAll = .applied strategy occurrences updated := by
      rw [patchDisk_fst] at hsuccess
      cases hanswer : patch host d.file old new replaceAll with
      | applied strategy occurrences updated => exact ⟨_, _, _, rfl⟩
      | alreadyApplied => exact absurd hanswer hdone
      | _ =>
        rw [hanswer] at hsuccess
        exact absurd hsuccess id
    obtain ⟨hpresent, hwritable, original, horiginal, hnew, -, -, -, -, rfl⟩ := patch_applied_iff.mp happlied
    obtain ⟨hreadable, rfl⟩ := content_file horiginal
    have hcr : '\r' ∉ readText d.bytes := no_cr_universal _
    rw [patchDisk_of_applied happlied, or_iff_right hnew, applied_iff_settled hlen hcr, ← readText_writeText]
    exact doesNothing_iff hpresent hwritable hreadable

def textFile (text : String) : Disk := ⟨true, true, false, true, encode text.toList⟩

/-- A line that is replaced by another one. -/
theorem resend_iff_replaced : DoesNothing ⟨fun _ _ => [], fun _ => true⟩ .posix
    (patchDisk ⟨fun _ _ => [], fun _ => true⟩ .posix (textFile "a = 1\n") "a = 1".toList "b = 20".toList false).2
    "a = 1".toList "b = 20".toList false := by
  have htext : edited ⟨fun _ _ => [], fun _ => true⟩ (readText (textFile "a = 1\n").bytes) "a = 1".toList
      "b = 20".toList false = "b = 20\n".toList := by decide_cbv
  refine (resend_iff ⟨fun _ _ => [], fun _ => true⟩ .posix (textFile "a = 1\n") "a = 1".toList "b = 20".toList false
    (by decide) ?_).mpr (Or.inr ⟨fun _ => Or.inr (Or.inl ?_), fun _ => Or.inl ⟨by decide, ?_, Or.inr ?_⟩⟩)
  · have hanswer : patch ⟨fun _ _ => [], fun _ => true⟩ (textFile "a = 1\n").file "a = 1".toList "b = 20".toList false =
        .applied .exact 1 "b = 20\n".toList := by decide_cbv
    rw [patchDisk_fst, hanswer]
    trivial
  · rw [htext]
    decide
  · rw [htext]
    decide
  · rw [htext]
    decide

/-- A line that is added below the old one is added again. -/
theorem line_added_again : ¬ ∀ (host : Host) (sys : System) (d : Disk) (old new : Text) (replaceAll : Bool),
    6 ≤ (stripChars new).length → (patchDisk host sys d old new replaceAll).1.Succeeds →
      DoesNothing host sys (patchDisk host sys d old new replaceAll).2 old new replaceAll := by
  intro h
  have hfirst : patchDisk ⟨fun _ _ => [], fun _ => true⟩ .posix (textFile "x = 1\n") "x = 1".toList
      "x = 1\ny = 2".toList false = (.applied .exact 1 "x = 1\ny = 2\n".toList, textFile "x = 1\ny = 2\n") := by
    decide_cbv
  have hagain : (patchDisk ⟨fun _ _ => [], fun _ => true⟩ .posix (textFile "x = 1\ny = 2\n") "x = 1".toList
      "x = 1\ny = 2".toList false).1 = .applied .exact 1 "x = 1\ny = 2\ny = 2\n".toList := by decide_cbv
  have hnothing := h ⟨fun _ _ => [], fun _ => true⟩ .posix (textFile "x = 1\n") "x = 1".toList "x = 1\ny = 2".toList
    false (by decide) (by rw [hfirst]; trivial)
  rw [hfirst] at hnothing
  exact hnothing.answer _ _ _ hagain

end Smara.Files.PatchEngine
