import Mathlib.Algebra.BigOperators.Group.List.Basic
import Smara.Lib.Blocks
import Smara.Lib.Lines

/-! # Reviewed changes

A patch is shown with its hunks and its added and removed lines, and a hunk of it may be applied alone. The patch is
split into lines by `str.splitlines`, although its records end with LF.

* `splitPatch`, `preview`: the header and the hunks that are found, and what is counted.
* `Patch`: what git takes for a patch of one file; `text`: it is written record by record.
* `selected_iff`: when the hunks and the counts are those of git. -/

namespace Smara.Native.Changes

open Lib.Letters Lib.PyText Lib.Blocks

abbrev Text := List Char

def IsHunk (line : Text) : Prop := ['@', '@', ' '] <+: line

instance : DecidablePred IsHunk := fun _ => inferInstanceAs (Decidable (_ <+: _))

def splitPatch (value : Text) : Text × List Text :=
  let lines := splitLinesKeep value
  let starts := starts IsHunk 0 lines
  (match starts with
    | [] => value
    | start :: _ => (lines.take start).flatten,
    (cuts lines starts).map List.flatten)

/-- The line is counted: `startswith("+") and not startswith("+++")`, and the same of minus signs. -/
def Counted (sign : Char) (line : Text) : Prop := [sign] <+: line ∧ ¬ [sign, sign, sign] <+: line

instance (sign : Char) : DecidablePred (Counted sign) := fun _ => inferInstanceAs (Decidable (_ ∧ _))

/-- What `preview` shows of a file. -/
structure FileEntry where
  hunks : ℕ
  added : ℕ
  removed : ℕ
  deriving DecidableEq, Repr

def preview (value : Text) : FileEntry where
  hunks := (splitPatch value).2.length
  added := (splitLines value).countP fun l => Counted '+' l
  removed := (splitLines value).countP fun l => Counted '-' l

/-! ### Patches -/

/-- A hunk of git: its header, and the records of its body. -/
structure Hunk where
  header : Text
  body : List Text
  isHunk : IsHunk header
  inner : ∀ r ∈ body, ¬ IsHunk r

def Hunk.records (h : Hunk) : List Text := h.header :: h.body

def written (records : List Text) : Text := records.flatMap (· ++ ['\n'])

/-- **A patch of one file.** What stands before the first hunk begins with a sign only in the lines of the two names. -/
structure Patch where
  header : List Text
  hunks : List Hunk
  outer : ∀ r ∈ header, ¬ IsHunk r
  names : ∀ r ∈ header, ∀ sign ∈ ['+', '-'], ¬ Counted sign r
  lf : ∀ r ∈ header ++ hunks.flatMap Hunk.records, '\n' ∉ r

def Patch.records (p : Patch) : List Text := p.header ++ p.hunks.flatMap Hunk.records

def Patch.text (p : Patch) : Text := written p.records

def Patch.bodies (p : Patch) : List Text := p.hunks.flatMap Hunk.body

/-- **The hunks of git.** The patch is split into its header and its hunks, and what is counted are the added and the
removed records. -/
structure Selected (p : Patch) : Prop where
  whole : (splitPatch p.text).1 ++ (splitPatch p.text).2.flatten = p.text
  hunks : splitPatch p.text = (written p.header, p.hunks.map fun h => written h.records)
  added : (preview p.text).added = p.bodies.countP fun r => decide (['+'] <+: r)
  removed : (preview p.text).removed = p.bodies.countP fun r => decide (['-'] <+: r)

/-- No line break in a record but LF is followed by `@@`; and as many added records begin with two more plus signs as
there are lines after such a line break that are counted, and the same of removed records. -/
structure Plain (p : Patch) : Prop where
  hunks : ∀ r ∈ p.records, ∀ l ∈ laterLines r, ¬ IsHunk l
  counts : ∀ sign ∈ ['+', '-'], p.bodies.countP (fun r => decide ([sign, sign, sign] <+: r)) =
    (p.records.flatMap laterLines).countP fun l => Counted sign l

/-! ### The header and the hunks -/

theorem splitPatch_eq {value : Text} {pre : List Text} {blocks : List (List Text)}
    (h : splitLinesKeep value = pre ++ blocks.flatten) (hpre : ∀ l ∈ pre, ¬ IsHunk l)
    (hblocks : ∀ block ∈ blocks, IsBlock IsHunk block) : splitPatch value = (pre.flatten, blocks.map List.flatten) := by
  obtain ⟨hstarts, hcuts⟩ := cuts_starts hpre hblocks
  have hvalue : (pre ++ blocks.flatten).flatten = value := by rw [← h, flatten_splitLinesKeep]
  unfold splitPatch
  simp only [h, hcuts]
  rw [hstarts]
  cases blocks with
  | nil =>
    rw [List.flatten_nil, List.append_nil] at hvalue
    rw [offsets, hvalue]
  | cons block blocks =>
    rw [offsets]
    simp only [List.take_left]

theorem splitPatch_whole (value : Text) : (splitPatch value).1 ++ (splitPatch value).2.flatten = value := by
  obtain ⟨pre, blocks, h, hpre, hblocks⟩ := exists_blocks IsHunk (splitLinesKeep value)
  rw [splitPatch_eq h hpre hblocks]
  simp only
  rw [← List.flatten_flatten, ← List.flatten_append, ← h, flatten_splitLinesKeep]

theorem length_splitPatch (value : Text) : (splitPatch value).2.length = (splitLinesKeep value).countP fun l => IsHunk l := by
  unfold splitPatch
  rw [List.length_map, length_cuts, length_starts]

theorem isHunk_firstLine {r : Text} : IsHunk (firstLine r) ↔ IsHunk r := prefix_firstLine_iff (by decide)

theorem counted_firstLine {sign : Char} (h : sign ∈ ['+', '-']) {r : Text} : Counted sign (firstLine r) ↔ Counted sign r := by
  have hbreak : ¬ isLineBreak sign := by
    have hall : ∀ sign ∈ ['+', '-'], ¬ isLineBreak sign := by decide
    exact hall sign h
  unfold Counted
  rw [prefix_firstLine_iff (by simpa using hbreak), prefix_firstLine_iff (by simpa using hbreak)]

def linesOf (records : List Text) : List Text := records.flatMap fun r => firstLine r :: laterLines r

theorem splitLinesKeep_written (records : List Text) : splitLinesKeep (written records) = linesOf records := by
  rw [written, splitLinesKeep_records, linesOf]
  simp only [splitLinesKeep_record]

theorem flatten_linesOf (records : List Text) : (linesOf records).flatten = written records := by
  rw [← splitLinesKeep_written, flatten_splitLinesKeep]

theorem linesOf_append (records records' : List Text) : linesOf (records ++ records') = linesOf records ++ linesOf records' :=
  List.flatMap_append

theorem countP_linesOf {q : Text → Prop} [DecidablePred q] (hq : ∀ r, q (firstLine r) ↔ q r) (records : List Text) :
    (linesOf records).countP (fun l => q l) =
      records.countP (fun r => q r) + (records.flatMap laterLines).countP fun l => q l := by
  induction records with
  | nil => rfl
  | cons r records ih =>
    have hhead : linesOf (r :: records) = (firstLine r :: laterLines r) ++ linesOf records := List.flatMap_cons
    rw [hhead, List.countP_append, List.countP_cons, ih, List.countP_cons, List.flatMap_cons, List.countP_append]
    simp only [hq]
    omega

theorem isBlock_hunk {h : Hunk} (hlater : ∀ r ∈ h.records, ∀ l ∈ laterLines r, ¬ IsHunk l) :
    IsBlock IsHunk (linesOf h.records) := by
  refine ⟨firstLine h.header, laterLines h.header ++ linesOf h.body, rfl, isHunk_firstLine.mpr h.isHunk, fun l hl => ?_⟩
  rcases List.mem_append.mp hl with hl | hl
  · exact hlater h.header List.mem_cons_self l hl
  · obtain ⟨r, hr, hl⟩ := List.mem_flatMap.mp hl
    rcases List.mem_cons.mp hl with rfl | hl
    · exact fun hhunk => h.inner r hr (isHunk_firstLine.mp hhunk)
    · exact hlater r (List.mem_cons_of_mem _ hr) l hl

theorem splitPatch_text {p : Patch} (h : ∀ r ∈ p.records, ∀ l ∈ laterLines r, ¬ IsHunk l) :
    splitPatch p.text = (written p.header, p.hunks.map fun h => written h.records) := by
  have hlines : splitLinesKeep p.text = linesOf p.header ++ (p.hunks.map fun h => linesOf h.records).flatten := by
    rw [Patch.text, splitLinesKeep_written, Patch.records, linesOf_append, ← List.flatMap_def]
    exact congrArg _ List.flatMap_assoc
  have hheader : ∀ l ∈ linesOf p.header, ¬ IsHunk l := by
    intro l hl
    obtain ⟨r, hr, hl⟩ := List.mem_flatMap.mp hl
    rcases List.mem_cons.mp hl with rfl | hl
    · exact fun hhunk => p.outer r hr (isHunk_firstLine.mp hhunk)
    · exact h r (List.mem_append_left _ hr) l hl
  have hhunks : ∀ block ∈ p.hunks.map fun h => linesOf h.records, IsBlock IsHunk block := by
    intro block hblock
    obtain ⟨hunk, hhunk, rfl⟩ := List.mem_map.mp hblock
    refine isBlock_hunk fun r hr => h r (List.mem_append_right _ ?_)
    exact List.mem_flatMap.mpr ⟨hunk, hhunk, hr⟩
  rw [splitPatch_eq hlines hheader hhunks, flatten_linesOf, List.map_map]
  simp only [Function.comp_def, flatten_linesOf]

theorem countP_isHunk (p : Patch) : p.records.countP (fun r => IsHunk r) = p.hunks.length := by
  have hheader : p.header.countP (fun r => decide (IsHunk r)) = 0 :=
    List.countP_eq_zero.mpr fun r hr => by simpa using p.outer r hr
  rw [Patch.records, List.countP_append, hheader, Nat.zero_add]
  induction p.hunks with
  | nil => rfl
  | cons h hunks ih =>
    have hbody : h.body.countP (fun r => decide (IsHunk r)) = 0 :=
      List.countP_eq_zero.mpr fun r hr => by simpa using h.inner r hr
    rw [List.flatMap_cons, List.countP_append, ih, Hunk.records, List.countP_cons_of_pos (by simpa using h.isHunk), hbody,
      List.length_cons]
    omega

theorem no_later_hunk {p : Patch} (h : (splitPatch p.text).2.length = p.hunks.length) :
    ∀ r ∈ p.records, ∀ l ∈ laterLines r, ¬ IsHunk l := by
  rw [length_splitPatch, Patch.text, splitLinesKeep_written, countP_linesOf (fun r => isHunk_firstLine), countP_isHunk] at h
  have hzero : (p.records.flatMap laterLines).countP (fun l => decide (IsHunk l)) = 0 := by omega
  intro r hr l hl
  simpa using List.countP_eq_zero.mp hzero l (List.mem_flatMap.mpr ⟨r, hr, hl⟩)

/-! ### The counts -/

theorem countP_splitLines {sign : Char} (h : sign ∈ ['+', '-']) (value : Text) :
    (splitLines value).countP (fun l => Counted sign l) = (splitLinesKeep value).countP fun l => Counted sign l := by
  have hbreak : ¬ isLineBreak sign := by
    have hall : ∀ sign ∈ ['+', '-'], ¬ isLineBreak sign := by decide
    exact hall sign h
  have hchomp : ∀ l : Text, Counted sign (l.reverse.dropWhile isLineBreak).reverse ↔ Counted sign l := by
    intro l
    unfold Counted
    rw [prefix_chomp_iff (by simpa using hbreak), prefix_chomp_iff (by simpa using hbreak)]
  rw [splitLines, List.countP_map]
  exact List.countP_congr fun l _ => by simpa only [Function.comp_apply, decide_eq_true_eq] using hchomp l

theorem countP_counted {sign : Char} (h : sign ∈ ['+', '-']) (p : Patch) :
    p.records.countP (fun r => Counted sign r) = p.bodies.countP fun r => Counted sign r := by
  have hheader : p.header.countP (fun r => decide (Counted sign r)) = 0 :=
    List.countP_eq_zero.mpr fun r hr => by simpa using p.names r hr sign h
  have hhunk : ∀ r, IsHunk r → ¬ Counted sign r := by
    rintro r ⟨t, rfl⟩ ⟨⟨t', ht⟩, -⟩
    have hhead : sign = '@' := (List.cons.inj ht).1
    rw [hhead] at h
    exact absurd h (by decide)
  rw [Patch.records, Patch.bodies, List.countP_append, hheader, Nat.zero_add]
  induction p.hunks with
  | nil => rfl
  | cons hunk hunks ih =>
    rw [List.flatMap_cons, List.countP_append, ih, Hunk.records,
      List.countP_cons_of_neg (by simpa using hhunk _ hunk.isHunk), List.flatMap_cons, List.countP_append]

theorem countP_sign (sign : Char) (records : List Text) : records.countP (fun r => decide ([sign] <+: r)) =
    records.countP (fun r => Counted sign r) + records.countP fun r => decide ([sign, sign, sign] <+: r) := by
  induction records with
  | nil => rfl
  | cons r records ih =>
    have hthree : [sign, sign, sign] <+: r → [sign] <+: r := fun h => (by simp : [sign] <+: [sign, sign, sign]).trans h
    rw [List.countP_cons, List.countP_cons, List.countP_cons, ih]
    by_cases h₁ : [sign] <+: r <;> by_cases h₃ : [sign, sign, sign] <+: r <;> simp [Counted, h₁, h₃] <;> first | omega | skip
    exact absurd (hthree h₃) h₁

theorem count_eq_iff {sign : Char} (h : sign ∈ ['+', '-']) (p : Patch) :
    (splitLines p.text).countP (fun l => Counted sign l) = p.bodies.countP (fun r => decide ([sign] <+: r)) ↔
      p.bodies.countP (fun r => decide ([sign, sign, sign] <+: r)) =
        (p.records.flatMap laterLines).countP fun l => Counted sign l := by
  rw [countP_splitLines h, Patch.text, splitLinesKeep_written, countP_linesOf (fun r => counted_firstLine h),
    countP_counted h, countP_sign]
  omega

/-- **When the hunks and the counts are those of git.** -/
theorem selected_iff (p : Patch) : Selected p ↔ Plain p := by
  constructor
  · rintro ⟨-, hhunks, hadded, hremoved⟩
    refine ⟨no_later_hunk (by rw [hhunks, List.length_map]), fun sign hsign => (count_eq_iff hsign p).mp ?_⟩
    rcases List.mem_pair.mp hsign with rfl | rfl
    · exact hadded
    · exact hremoved
  · rintro ⟨hhunks, hcounts⟩
    exact ⟨splitPatch_whole _, splitPatch_text hhunks, (count_eq_iff (by decide) p).mpr (hcounts _ (by decide)),
      (count_eq_iff (by decide) p).mpr (hcounts _ (by decide))⟩

/-- A line is added that has a form feed before `@@`, and then one that begins with two plus signs. -/
def formFeed : Patch where
  header := ["diff --git a/f b/f".toList, "--- a/f".toList, "+++ b/f".toList]
  hunks := [⟨"@@ -0,0 +1,2 @@".toList, ["+a\x0c@@ b".toList, "+++c".toList], by decide, by decide⟩]
  outer := by decide
  names := by decide
  lf := by decide

/-- Two hunks are found, and one added line. -/
theorem formFeed_not_selected : (preview formFeed.text).hunks = 2 ∧ (preview formFeed.text).added = 1 ∧ ¬ Selected formFeed := by
  have hhunks : (preview formFeed.text).hunks = 2 := by decide
  refine ⟨hhunks, by decide, fun h => ?_⟩
  have hlength : (splitPatch formFeed.text).2.length = 1 := by
    rw [h.hunks]
    rfl
  exact absurd (hhunks.symm.trans hlength) (by decide)

end Smara.Native.Changes
