import Smara.Lib.Lines

/-! # Spacing

Texts up to white space: each run of it counts as one blank, and that at the ends does not count.

* `normalize`: the text with its white space in this form.
* `spaced_true_flatten`: of a text of lines, it is that of one line after the other. -/

namespace Smara.Lib.PyText

/-- The text with one blank before each word; none before the first one, unless white space is `pending`. -/
def spaced (pending : Bool) : List Char → List Char
  | [] => []
  | c :: s =>
    if isSpace c then spaced true s
    else if pending then ' ' :: c :: spaced false s
    else c :: spaced false s

/-- **The text with each run of white space as one blank**, trimmed. -/
def normalize (s : List Char) : List Char := spaced false (s.dropWhile isSpace)

example : normalize " a\t\n b ".toList = "a b".toList := by decide

variable {b : Bool} {r s : List Char}

theorem spaced_spaces_append (h : ∀ c ∈ r, isSpace c) (hne : r ≠ []) : spaced b (r ++ s) = spaced true s := by
  induction r generalizing b with
  | nil => exact absurd rfl hne
  | cons c r ih =>
    obtain ⟨hc, hr⟩ := List.forall_mem_cons.mp h
    rw [List.cons_append, spaced, if_pos hc]
    cases r with
    | nil => rfl
    | cons d r => exact ih hr (List.cons_ne_nil _ _)

theorem spaced_true_spaces_append (h : ∀ c ∈ r, isSpace c) : spaced true (r ++ s) = spaced true s := by
  cases r with
  | nil => rfl
  | cons c r => exact spaced_spaces_append h (List.cons_ne_nil _ _)

theorem spaced_spaces (h : ∀ c ∈ r, isSpace c) : spaced b r = [] := by
  induction r generalizing b with
  | nil => rfl
  | cons c r ih =>
    obtain ⟨hc, hr⟩ := List.forall_mem_cons.mp h
    rw [spaced, if_pos hc, ih hr]

theorem isSpace_of_spaced_eq_nil (h : spaced b s = []) : ∀ c ∈ s, isSpace c := by
  induction s generalizing b with
  | nil => simp
  | cons c s ih =>
    rw [spaced] at h
    split_ifs at h with hc
    exact List.forall_mem_cons.mpr ⟨hc, ih h⟩

theorem head_spaced_true {c : Char} {t : List Char} (h : spaced true s = c :: t) : c = ' ' := by
  induction s with
  | nil => cases h
  | cons d s ih =>
    rw [spaced, if_pos rfl] at h
    split_ifs at h
    · exact ih h
    · exact (List.cons.inj h).1.symm

theorem spaced_append_space {c : Char} (hc : isSpace c) (t : List Char) :
    spaced b (s ++ c :: t) = spaced b s ++ spaced true t := by
  induction s generalizing b with
  | nil => rw [List.nil_append, spaced, spaced, if_pos hc, List.nil_append]
  | cons d s ih =>
    rw [List.cons_append, spaced, spaced]
    split_ifs
    · exact ih
    · rw [ih]
      rfl
    · rw [ih]
      rfl

theorem spaced_append_spaces (h : ∀ c ∈ r, isSpace c) : spaced b (s ++ r) = spaced b s := by
  cases r with
  | nil => rw [List.append_nil]
  | cons c r =>
    obtain ⟨hc, hr⟩ := List.forall_mem_cons.mp h
    rw [spaced_append_space hc, spaced_spaces hr, List.append_nil]

/-! ### Trimming -/

theorem stripChars_split (s : List Char) : ∃ before after, s = before ++ stripChars s ++ after ∧
    (∀ c ∈ before, isSpace c) ∧ ∀ c ∈ after, isSpace c := by
  refine ⟨s.takeWhile isSpace, (((s.dropWhile isSpace).reverse).takeWhile isSpace).reverse, ?_,
    fun _ => List.mem_takeWhile_imp, fun c hc => List.mem_takeWhile_imp (List.mem_reverse.mp hc)⟩
  rw [List.append_assoc, stripChars, ← List.reverse_append, List.takeWhile_append_dropWhile, List.reverse_reverse,
    List.takeWhile_append_dropWhile]

theorem stripChars_within (s : List Char) : stripChars s <:+: s := by
  obtain ⟨before, after, heq, -, -⟩ := stripChars_split s
  exact ⟨before, after, heq.symm⟩

theorem spaced_true_stripChars (s : List Char) : spaced true (stripChars s) = spaced true s := by
  obtain ⟨before, after, heq, hbefore, hafter⟩ := stripChars_split s
  conv_rhs => rw [heq, List.append_assoc, spaced_true_spaces_append hbefore, spaced_append_spaces hafter]

theorem not_isSpace_of_dropWhile {c : Char} {t : List Char} (h : s.dropWhile isSpace = c :: t) : ¬ isSpace c := by
  have hhead := List.head?_dropWhile_not isSpace s
  rw [h] at hhead
  simpa using hhead

theorem not_isSpace_head {c : Char} {t : List Char} (h : stripChars s = c :: t) : ¬ isSpace c := by
  have hdrop : s.dropWhile isSpace = stripChars s ++ (((s.dropWhile isSpace).reverse).takeWhile isSpace).reverse := by
    rw [stripChars, ← List.reverse_append, List.takeWhile_append_dropWhile, List.reverse_reverse]
  rw [h, List.cons_append] at hdrop
  exact not_isSpace_of_dropWhile hdrop

theorem not_isSpace_getLast {c : Char} {t : List Char} (h : stripChars s = t ++ [c]) : ¬ isSpace c := by
  have hrev : (s.dropWhile isSpace).reverse.dropWhile isSpace = c :: t.reverse := by
    rw [← List.reverse_reverse (List.dropWhile _ _)]
    show (stripChars s).reverse = _
    rw [h, List.reverse_append]
    rfl
  exact not_isSpace_of_dropWhile hrev

theorem stripChars_eq_nil_iff : stripChars s = [] ↔ ∀ c ∈ s, isSpace c := by
  obtain ⟨before, after, heq, hbefore, hafter⟩ := stripChars_split s
  constructor
  · intro hnil c hc
    rw [heq, hnil, List.append_nil, List.mem_append] at hc
    exact hc.elim (hbefore c) (hafter c)
  · intro hall
    rw [stripChars, List.dropWhile_eq_nil_iff.mpr hall]
    rfl

/-! ### Normal forms -/

theorem spaced_true_eq (s : List Char) : spaced true s = if normalize s = [] then [] else ' ' :: normalize s := by
  have hdrop : spaced true s = spaced true (s.dropWhile isSpace) := by
    conv_lhs => rw [← List.takeWhile_append_dropWhile (p := isSpace) (l := s)]
    exact spaced_true_spaces_append fun _ => List.mem_takeWhile_imp
  rw [hdrop, normalize]
  cases heq : s.dropWhile isSpace with
  | nil => rfl
  | cons c t =>
    have hc := not_isSpace_of_dropWhile heq
    simp [spaced, hc]

/-- **Equal normal forms.** -/
theorem normalize_eq_iff {t : List Char} : normalize s = normalize t ↔ spaced true s = spaced true t := by
  rw [spaced_true_eq, spaced_true_eq]
  constructor
  · intro h
    rw [h]
  · intro h
    split_ifs at h with hs ht ht
    · rw [hs, ht]
    · exact (List.cons.inj h).2

theorem filter_spaced (b : Bool) (s : List Char) :
    (spaced b s).filter (fun c => !isSpace c) = s.filter fun c => !isSpace c := by
  induction s generalizing b with
  | nil => rfl
  | cons c s ih =>
    have hblank : isSpace ' ' := by decide
    rw [spaced]
    split_ifs with hc hb
    · rw [ih, List.filter_cons_of_neg (by simp [hc])]
    · rw [List.filter_cons_of_neg (by simp [hblank]), List.filter_cons_of_pos (by simp [hc]), ih,
        List.filter_cons_of_pos (by simp [hc])]
    · rw [List.filter_cons_of_pos (by simp [hc]), ih, List.filter_cons_of_pos (by simp [hc])]

theorem filter_eq_of_normalize_eq {t : List Char} (h : normalize s = normalize t) :
    (s.filter fun c => !isSpace c) = t.filter fun c => !isSpace c := by
  rw [← filter_spaced true s, normalize_eq_iff.mp h, filter_spaced]

/-! ### Lines -/

def EndsInSpace (line : List Char) : Prop := ∃ l c, line = l ++ [c] ∧ isSpace c

theorem isSpace_of_isLineBreak {c : Char} (h : isLineBreak c) : isSpace c := by
  simp only [isLineBreak, Bool.or_eq_true, Bool.and_eq_true, decide_eq_true_eq, beq_iff_eq] at h
  simp only [isSpace, Bool.or_eq_true, Bool.and_eq_true, decide_eq_true_eq, beq_iff_eq]
  omega

theorem endsInSpace_of_mem (line s : List Char) : ∀ l ∈ (splitLinesFrom line s).dropLast, EndsInSpace l := by
  fun_induction splitLinesFrom line s with
  | case1 => simp
  | case2 line h => simp
  | case3 line cs ih =>
    intro l hl
    cases hrest : splitLinesFrom [] cs with
    | nil =>
      rw [hrest] at hl
      cases hl
    | cons first rest =>
      rw [hrest, List.dropLast_cons_cons] at hl
      rcases List.mem_cons.mp hl with rfl | hl
      · exact ⟨line ++ ['\r'], '\n', by simp, by decide⟩
      · exact ih l (hrest ▸ hl)
  | case4 line c cs _ hc ih =>
    intro l hl
    cases hrest : splitLinesFrom [] cs with
    | nil =>
      rw [hrest] at hl
      cases hl
    | cons first rest =>
      rw [hrest, List.dropLast_cons_cons] at hl
      rcases List.mem_cons.mp hl with rfl | hl
      · exact ⟨line, c, rfl, isSpace_of_isLineBreak hc⟩
      · exact ih l (hrest ▸ hl)
  | case5 line c cs _ _ ih => exact ih

/-- **The normal form of lines** is that of one line after the other. -/
theorem spaced_true_flatten {lines : List (List Char)} (h : ∀ l ∈ lines.dropLast, EndsInSpace l) :
    spaced true lines.flatten = lines.flatMap (spaced true) := by
  induction lines with
  | nil => rfl
  | cons l lines ih =>
    cases lines with
    | nil => simp
    | cons l' lines =>
      rw [List.dropLast_cons_cons] at h
      obtain ⟨⟨t, c, rfl, hc⟩, hrest⟩ := List.forall_mem_cons.mp h
      have hline : spaced true (t ++ [c]) = spaced true t := by
        rw [spaced_append_space hc]
        simp [spaced]
      rw [List.flatMap_cons, hline, ← ih hrest, List.flatten_cons, List.append_assoc, List.singleton_append,
        spaced_append_space hc]

end Smara.Lib.PyText
