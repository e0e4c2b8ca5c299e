import Mathlib.Data.List.DropRight
import Mathlib.Data.List.Infix
import Smara.Lib.PyText

/-! # Lines of a text

A text of records that each end with LF is split into lines by `str.splitlines`, which knows more line breaks than LF.

* `flatten_splitLinesKeep`: the lines are the text.
* `splitLinesKeep_records`: the lines of the records, one after another.
* `firstLine`, `laterLines`: the line that a record begins with, and those after another line break in it. -/

namespace Smara.Lib.PyText

theorem isLineBreak_lf : isLineBreak '\n' := by decide

def Ended (line : List Char) : Prop := ∃ l c, line = l ++ [c] ∧ isLineBreak c

theorem flatten_splitLinesFrom (line s : List Char) : (splitLinesFrom line s).flatten = line ++ s := by
  fun_induction splitLinesFrom line s with
  | case1 => simp
  | case2 line h => simp
  | case3 line cs ih => simp [ih]
  | case4 line c cs _ _ ih => simp [ih]
  | case5 line c cs _ _ ih => simp [ih]

/-- **The lines of a text** are the text. -/
theorem flatten_splitLinesKeep (s : List Char) : (splitLinesKeep s).flatten = s := flatten_splitLinesFrom [] s

theorem splitLinesFrom_cons_of_ne {line : List Char} {c : Char} {cs : List Char} (h : ¬ (c = '\r' ∧ cs.head? = some '\n')) :
    splitLinesFrom line (c :: cs) =
      if isLineBreak c then (line ++ [c]) :: splitLinesFrom [] cs else splitLinesFrom (line ++ [c]) cs := by
  rw [splitLinesFrom]
  rintro cs' rfl rfl
  exact h ⟨rfl, rfl⟩

theorem splitLinesFrom_append (line r s : List Char) :
    splitLinesFrom line (r ++ '\n' :: s) = splitLinesFrom line (r ++ ['\n']) ++ splitLinesFrom [] s := by
  generalize hn : r.length = n
  induction n using Nat.strongRecOn generalizing line r with
  | ind n ih =>
    cases r with
    | nil =>
      have hlf : ∀ cs, splitLinesFrom line ('\n' :: cs) = (line ++ ['\n']) :: splitLinesFrom [] cs := by
        intro cs
        rw [splitLinesFrom_cons_of_ne (by simp), if_pos isLineBreak_lf]
      rw [List.nil_append, List.nil_append, hlf, hlf]
      rfl
    | cons c r =>
      rw [List.length_cons] at hn
      by_cases hcr : c = '\r' ∧ (r ++ ['\n']).head? = some '\n'
      · obtain ⟨rfl, hhead⟩ := hcr
        cases r with
        | nil => rfl
        | cons c' r =>
          obtain rfl : c' = '\n' := by simpa using hhead
          have hpair : ∀ cs, splitLinesFrom line ('\r' :: '\n' :: cs) = (line ++ ['\r', '\n']) :: splitLinesFrom [] cs :=
            fun cs => by rw [splitLinesFrom]
          simp only [List.cons_append, hpair]
          rw [ih r.length (by rw [← hn, List.length_cons]; omega) [] r rfl]
      · have hne : ∀ s, ¬ (c = '\r' ∧ (r ++ '\n' :: s).head? = some '\n') := by
          intro s hboth
          refine hcr ⟨hboth.1, ?_⟩
          cases r with
          | nil => rfl
          | cons c' r => exact hboth.2
        rw [List.cons_append, List.cons_append, splitLinesFrom_cons_of_ne (hne s), splitLinesFrom_cons_of_ne (hne [])]
        split_ifs
        · rw [ih r.length (by omega) [] r rfl, List.cons_append]
        · exact ih r.length (by omega) (line ++ [c]) r rfl

theorem splitLinesKeep_records (records : List (List Char)) :
    splitLinesKeep (records.flatMap (· ++ ['\n'])) = records.flatMap fun r => splitLinesKeep (r ++ ['\n']) := by
  induction records with
  | nil => rfl
  | cons r records ih =>
    rw [List.flatMap_cons, List.flatMap_cons, ← ih, List.append_assoc, List.singleton_append]
    exact splitLinesFrom_append [] r _

theorem ended_of_mem (line r : List Char) : ∀ l ∈ splitLinesFrom line (r ++ ['\n']), Ended l := by
  generalize hn : r.length = n
  induction n using Nat.strongRecOn generalizing line r with
  | ind n ih =>
    cases r with
    | nil =>
      rw [List.nil_append, splitLinesFrom_cons_of_ne (by simp), if_pos isLineBreak_lf]
      rintro l (_ | ⟨_, hl⟩)
      · exact ⟨line, '\n', rfl, isLineBreak_lf⟩
      · cases hl
    | cons c r =>
      rw [List.length_cons] at hn
      by_cases hcr : c = '\r' ∧ (r ++ ['\n']).head? = some '\n'
      · obtain ⟨rfl, hhead⟩ := hcr
        have hended : Ended (line ++ ['\r', '\n']) :=
          ⟨line ++ ['\r'], '\n', by rw [List.append_assoc]; rfl, isLineBreak_lf⟩
        cases r with
        | nil =>
          rintro l (_ | ⟨_, hl⟩)
          · exact hended
          · cases hl
        | cons c' r =>
          obtain rfl : c' = '\n' := by simpa using hhead
          intro l hl
          rw [List.cons_append, List.cons_append, splitLinesFrom] at hl
          rcases List.mem_cons.mp hl with rfl | hl
          · exact hended
          · exact ih r.length (by rw [← hn, List.length_cons]; omega) [] r rfl l hl
      · rw [List.cons_append, splitLinesFrom_cons_of_ne hcr]
        split_ifs with hbreak
        · intro l hl
          rcases List.mem_cons.mp hl with rfl | hl
          · exact ⟨line, c, rfl, hbreak⟩
          · exact ih r.length (by omega) [] r rfl l hl
        · exact ih r.length (by omega) (line ++ [c]) r rfl

/-! ### The lines of a record -/

def firstLine (r : List Char) : List Char := (splitLinesKeep (r ++ ['\n'])).headD []

def laterLines (r : List Char) : List (List Char) := (splitLinesKeep (r ++ ['\n'])).tail

theorem splitLinesKeep_record (r : List Char) : splitLinesKeep (r ++ ['\n']) = firstLine r :: laterLines r := by
  unfold firstLine laterLines
  cases h : splitLinesKeep (r ++ ['\n']) with
  | nil =>
    have hflatten := flatten_splitLinesKeep (r ++ ['\n'])
    rw [h] at hflatten
    simp at hflatten
  | cons line lines => rfl

variable {needle : List Char} (hneedle : ∀ c ∈ needle, ¬ isLineBreak c)
include hneedle

theorem prefix_of_append {l rest : List Char} (h : needle <+: l ++ rest) (hrest : ∀ c ∈ rest.head?, isLineBreak c) :
    needle <+: l := by
  rcases List.prefix_or_prefix_of_prefix h (List.prefix_append l rest) with hl | ⟨t, rfl⟩
  · exact hl
  · cases t with
    | nil => rw [List.append_nil]
    | cons c t =>
      obtain ⟨rest, rfl⟩ := (List.prefix_append_right_inj l).mp h
      exact absurd (hrest c rfl) (hneedle c (by simp))

theorem prefix_firstLine_iff {r : List Char} : needle <+: firstLine r ↔ needle <+: r := by
  have hwhole : r ++ ['\n'] = firstLine r ++ (laterLines r).flatten := by
    rw [← List.flatten_cons, ← splitLinesKeep_record, flatten_splitLinesKeep]
  have hended : Ended (firstLine r) := by
    refine ended_of_mem [] r _ ?_
    rw [show splitLinesFrom [] (r ++ ['\n']) = _ from splitLinesKeep_record r]
    exact List.mem_cons_self
  obtain ⟨l, c, heq, hc⟩ := hended
  constructor
  · intro h
    have hshort : needle <+: r ++ ['\n'] := by
      rw [hwhole]
      exact h.trans (List.prefix_append _ _)
    exact prefix_of_append hneedle hshort (by simpa using isLineBreak_lf)
  · intro h
    have hlong : needle <+: l ++ ([c] ++ (laterLines r).flatten) := by
      rw [← List.append_assoc, ← heq, ← hwhole]
      exact h.trans (List.prefix_append _ _)
    rw [heq]
    exact (prefix_of_append hneedle hlong (by simpa using hc)).trans (List.prefix_append _ _)

theorem prefix_chomp_iff {line : List Char} :
    needle <+: (line.reverse.dropWhile isLineBreak).reverse ↔ needle <+: line := by
  have hwhole : line = (line.reverse.dropWhile isLineBreak).reverse ++ (line.reverse.takeWhile isLineBreak).reverse := by
    rw [← List.reverse_append, List.takeWhile_append_dropWhile, List.reverse_reverse]
  constructor
  · intro h
    rw [hwhole]
    exact h.trans (List.prefix_append _ _)
  · intro h
    rw [hwhole] at h
    refine prefix_of_append hneedle h fun c hc => ?_
    have hmem : c ∈ line.reverse.takeWhile isLineBreak := List.mem_reverse.mp (List.mem_of_mem_head? hc)
    exact List.all_eq_true.mp List.all_takeWhile c hmem

end Smara.Lib.PyText
