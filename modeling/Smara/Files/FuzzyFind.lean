import Smara.Files.PatchEngine
import Smara.Lib.Sequence
import Smara.Lib.Spacing

/-! # Whitespace drift

`_fuzzy_find` looks for the old text as it is, by its trimmed lines, by a regular expression that is to take any white
space for white space, and without the white space at its ends. The pattern is made of the escaped text, though:
`re.escape` puts a backslash before white space of ASCII, and what stands there afterwards is `\\s+`, a backslash
with letters `s` behind it.

* `findWhitespaceNormalized`: the pattern and its matches.
* `fuzzyFind_iff`: **when the search is sound and complete**, up to white space. -/

namespace Smara.Files.PatchEngine

open Lib.Letters Lib.PyText Lib.Needle Lib.Regex

/-! ### The pattern -/

/-- The characters that `re.escape` escapes. -/
def special : Text := "()[]\x7b\x7d?*+-|^$\\.&~# \t\n\r\x0b\x0c".toList

def escape (s : Text) : Text := s.flatMap fun c => if c ∈ special then ['\\', c] else [c]

/-- `re.sub(r'\s+', r'\\s+', ·)`, `inside` a run of white space -/
def collapse (inside : Bool) : Text → Text
  | [] => []
  | c :: s =>
    if isSpace c then (if inside then [] else ['\\', 's', '+']) ++ collapse true s
    else c :: collapse false s

def normPattern (old : Text) : Text := collapse false (escape (stripChars old))

def escaped (c : Char) : Char → Bool := if c = 's' then isSpace else (· == c)

/-- The classes of such a pattern. -/
def compile : Text → List Item
  | '\\' :: c :: '+' :: s => ⟨escaped c, true⟩ :: compile s
  | '\\' :: c :: s => ⟨escaped c, false⟩ :: compile s
  | c :: '+' :: s => ⟨(· == c), true⟩ :: compile s
  | c :: s => ⟨(· == c), false⟩ :: compile s
  | [] => []

def findWhitespaceNormalized (content old : Text) : List Span :=
  (finditer (sequence (compile (normPattern old))) content).map fun m => (m.start, m.stop)

def engine (parses : Text → Bool) : Host := ⟨findWhitespaceNormalized, parses⟩

/-! ### What the pattern stands for -/

def Hard (c : Char) : Prop := c ∈ special ∧ isSpace c

instance : DecidablePred Hard := fun _ => inferInstanceAs (Decidable (_ ∧ _))

/-- The classes of the pattern of a text: white space that is escaped becomes a backslash with letters `s`. -/
def classes (inside : Bool) : Text → List Item
  | [] => []
  | c :: s =>
    if Hard c then ⟨(· == '\\'), false⟩ :: ⟨(· == 's'), true⟩ :: classes true s
    else if isSpace c then (if inside then [] else [⟨isSpace, true⟩]) ++ classes true s
    else ⟨(· == c), false⟩ :: classes false s

theorem head_collapse_escape (inside : Bool) (s : Text) : (collapse inside (escape s)).head? ≠ some '+' := by
  induction s generalizing inside with
  | nil => simp [escape, collapse]
  | cons c s ih =>
    have hslash : ¬ isSpace '\\' := by decide
    have hplus : '+' ∈ special := by decide
    rw [escape, List.flatMap_cons]
    by_cases hc : c ∈ special
    · rw [if_pos hc, List.cons_append, collapse, if_neg hslash]
      simp
    · rw [if_neg hc, List.singleton_append, collapse]
      split_ifs
      · exact ih true
      · simp
      · rintro heq
        obtain rfl := Option.some.inj heq
        exact hc hplus

theorem compile_lit {c : Char} {s : Text} (hc : c ≠ '\\') (hs : s.head? ≠ some '+') :
    compile (c :: s) = ⟨(· == c), false⟩ :: compile s := by
  rw [compile]
  · rintro d t rfl
    exact absurd rfl hc
  · rintro d t rfl
    exact absurd rfl hc
  · rintro t rfl
    exact hs rfl

theorem compile_escaped {c : Char} {s : Text} (hs : s.head? ≠ some '+') :
    compile ('\\' :: c :: s) = ⟨escaped c, false⟩ :: compile s := by
  rw [compile]
  rintro t rfl
  exact hs rfl

theorem compile_collapse (inside : Bool) (s : Text) : compile (collapse inside (escape s)) = classes inside s := by
  induction s generalizing inside with
  | nil => rfl
  | cons c s ih =>
    have hslash : ¬ isSpace '\\' := by decide
    have hletter : 's' ∉ special := by decide
    have hcons : escape (c :: s) = (if c ∈ special then ['\\', c] else [c]) ++ escape s := List.flatMap_cons ..
    rw [hcons, classes]
    by_cases hc : c ∈ special
    · have hne : c ≠ 's' := by
        rintro rfl
        exact hletter hc
      rw [if_pos hc, List.cons_append, List.singleton_append, collapse, if_neg hslash, collapse]
      by_cases hspace : isSpace c
      · have hhard : Hard c := ⟨hc, hspace⟩
        rw [if_pos hspace, if_neg Bool.false_ne_true, if_pos hhard, ← ih]
        show compile ('\\' :: '\\' :: 's' :: '+' :: collapse true (escape s)) = _
        have hs : compile ('s' :: '+' :: collapse true (escape s)) =
            ⟨(· == 's'), true⟩ :: compile (collapse true (escape s)) := by
          rw [compile]
          all_goals simp
        rw [compile_escaped (by simp), hs]
        rfl
      · have hsoft : ¬ Hard c := fun h => hspace h.2
        rw [if_neg hspace, if_neg hsoft, if_neg hspace, ← ih, compile_escaped (head_collapse_escape false s), escaped,
          if_neg hne]
    · have hsoft : ¬ Hard c := fun h => hc h.1
      rw [if_neg hc, List.singleton_append, collapse, if_neg hsoft]
      by_cases hspace : isSpace c
      · rw [if_pos hspace, if_pos hspace, ← ih]
        cases inside with
        | true => rfl
        | false => rfl
      · have hne : c ≠ '\\' := by
          rintro rfl
          exact hc (by decide)
        rw [if_neg hspace, if_neg hspace, ← ih]
        exact compile_lit hne (head_collapse_escape false s)

/-- A text that the pattern of `s` takes. -/
def Drifts (s w : Text) : Prop := Spells (classes false s) w

/-- **The matches** of the pattern are the texts that it takes. -/
theorem findWhitespaceNormalized_spells {content old : Text} {span : Span}
    (h : span ∈ findWhitespaceNormalized content old) :
    Drifts (stripChars old) ((content.take span.2).drop span.1) := by
  obtain ⟨m, hm, rfl⟩ := List.mem_map.mp h
  obtain ⟨-, -, last, hlast, hstop⟩ := mem_finditer hm
  obtain ⟨w, hw, hprefix, rfl⟩ := mem_ends_sequence.mp hlast
  have htext : (content.take m.stop).drop m.start = w := by
    rw [List.drop_take, ← hstop]
    show (content.drop m.start).take (m.start + w.length - m.start) = w
    rw [Nat.add_sub_cancel_left]
    exact (List.prefix_iff_eq_take.mp hprefix).symm
  rw [normPattern, compile_collapse] at hw
  rw [htext]
  exact hw

theorem findWhitespaceNormalized_ne_nil {content old w : Text} (hwithin : w <:+: content)
    (h : Drifts (stripChars old) w) : findWhitespaceNormalized content old ≠ [] := by
  obtain ⟨before, after, heq⟩ := hwithin
  have hprefix : w <+: content.drop before.length := by
    rw [← heq, List.append_assoc, List.drop_left]
    exact List.prefix_append _ _
  have hle : before.length ≤ content.length := by
    rw [← heq]
    simp
  rw [findWhitespaceNormalized, normPattern, compile_collapse, Ne, List.map_eq_nil_iff]
  exact finditer_ne_nil hle (mem_ends_sequence.mpr ⟨w, h, hprefix, rfl⟩)

theorem findWhitespaceNormalized_ne_nil_iff {content old : Text} :
    findWhitespaceNormalized content old ≠ [] ↔ ∃ w, w <:+: content ∧ Drifts (stripChars old) w := by
  constructor
  · intro h
    obtain ⟨span, hspan⟩ := List.exists_mem_of_ne_nil _ h
    exact ⟨_, (List.drop_suffix _ _).isInfix.trans (List.take_prefix _ _).isInfix, findWhitespaceNormalized_spells hspan⟩
  · rintro ⟨w, hwithin, hw⟩
    exact findWhitespaceNormalized_ne_nil hwithin hw

/-! ### White space that is not escaped -/

theorem spaced_of_spells {s : Text} (hsoft : ∀ c ∈ s, ¬ Hard c) {inside : Bool} {w : Text}
    (h : Spells (classes inside s) w) {b : Bool} (hb : inside = true → b = true) : spaced b w = spaced b s := by
  induction s generalizing inside w b with
  | nil =>
    obtain rfl : w = [] := h
    rfl
  | cons c s ih =>
    obtain ⟨hc, hs⟩ := List.forall_mem_cons.mp hsoft
    rw [classes, if_neg hc] at h
    split_ifs at h with hspace hinside
    · rw [hb hinside, spaced, if_pos hspace]
      exact ih hs h fun _ => rfl
    · obtain ⟨r, v, rfl, ⟨hr, hne⟩, hv⟩ := h
      rw [if_pos rfl] at hne
      rw [spaced_spaces_append hr hne, spaced, if_pos hspace]
      exact ih hs hv fun _ => rfl
    · obtain ⟨r, v, rfl, ⟨hr, hone⟩, hv⟩ := h
      rw [if_neg Bool.false_ne_true] at hone
      obtain ⟨d, rfl⟩ := List.length_eq_one_iff.mp hone
      obtain rfl : d = c := by simpa using hr d (by simp)
      have hrest : spaced false v = spaced false s := ih hs hv fun hfalse => absurd hfalse Bool.false_ne_true
      rw [List.singleton_append, spaced, spaced, if_neg hspace, if_neg hspace, hrest]

def Tight (t : Text) : Prop := ∀ u c, t = u ++ [c] → ¬ isSpace c

theorem Tight.suffix {t u : Text} (h : Tight t) (hsuffix : u <:+ t) : Tight u := by
  rintro v c rfl
  obtain ⟨x, rfl⟩ := hsuffix
  exact h (x ++ v) c (by simp)

theorem Tight.eq_nil {t : Text} (h : Tight t) (hall : ∀ c ∈ t, isSpace c) : t = [] := by
  rcases List.eq_nil_or_concat t with rfl | ⟨u, c, rfl⟩
  · rfl
  · exact absurd (hall c (by simp)) (h u c (List.concat_eq_append ..))

theorem spells_of_spaced {s : Text} (hsoft : ∀ c ∈ s, ¬ Hard c) (hs : Tight s) {inside : Bool} {w : Text} (hw : Tight w)
    (hhead : inside = true → ∀ c ∈ w.head?, ¬ isSpace c) (h : spaced inside w = spaced inside s) :
    Spells (classes inside s) w := by
  induction s generalizing inside w with
  | nil => exact hw.eq_nil (isSpace_of_spaced_eq_nil h)
  | cons c s ih =>
    obtain ⟨hc, hrestSoft⟩ := List.forall_mem_cons.mp hsoft
    have hs' : Tight s := hs.suffix (List.suffix_cons c s)
    rw [classes, if_neg hc]
    split_ifs with hspace hinside
    · subst hinside
      rw [spaced.eq_def true (c :: s)] at h
      simp only [if_pos hspace] at h
      exact ih hrestSoft hs' hw hhead h
    · obtain rfl : inside = false := by simpa using hinside
      have hrest : spaced false w = spaced true s := by rw [h, spaced, if_pos hspace]
      have hblank : spaced true s ≠ [] := by
        intro hnil
        obtain rfl := hs'.eq_nil (isSpace_of_spaced_eq_nil hnil)
        exact hs [] c rfl hspace
      have hsplit : w.takeWhile isSpace ++ w.dropWhile isSpace = w := List.takeWhile_append_dropWhile
      have hne : w.takeWhile isSpace ≠ [] := by
        intro hnil
        cases hw' : w with
        | nil =>
          rw [hw'] at hrest
          exact hblank hrest.symm
        | cons d v =>
          rw [hw'] at hrest hnil
          have hd : ¬ isSpace d := by
            intro hd
            rw [List.takeWhile_cons_of_pos hd] at hnil
            cases hnil
          rw [spaced, if_neg hd, if_neg Bool.false_ne_true] at hrest
          obtain rfl := head_spaced_true hrest.symm
          exact hd (by decide)
      have htail : spaced true (w.dropWhile isSpace) = spaced true s := by
        rw [← hrest, ← spaced_spaces_append (fun _ => List.mem_takeWhile_imp) hne, hsplit]
      refine ⟨_, _, hsplit.symm, ⟨fun _ => List.mem_takeWhile_imp, by rwa [if_pos rfl]⟩, ?_⟩
      refine ih hrestSoft hs' (hw.suffix (List.dropWhile_suffix _)) (fun _ => ?_) htail
      intro d hd
      cases hv : w.dropWhile isSpace with
      | nil =>
        rw [hv] at hd
        cases hd
      | cons e v =>
        rw [hv] at hd
        obtain rfl := Option.some.inj hd
        exact not_isSpace_of_dropWhile hv
    · cases w with
      | nil =>
        rw [spaced.eq_def inside (c :: s)] at h
        simp only [if_neg hspace] at h
        split_ifs at h <;> cases h
      | cons d v =>
        have hd : ¬ isSpace d := by
          intro hd
          cases inside with
          | true => exact hhead rfl d rfl hd
          | false =>
            rw [spaced, if_pos hd, spaced, if_neg hspace, if_neg Bool.false_ne_true] at h
            obtain rfl := head_spaced_true h
            exact hspace (by decide)
        rw [spaced, if_neg hd, spaced, if_neg hspace] at h
        have heq : d = c ∧ spaced false v = spaced false s := by
          split_ifs at h
          · simpa using h
          · simpa using h
        obtain ⟨rfl, hrest⟩ := heq
        refine ⟨[d], v, rfl, ⟨by simp, rfl⟩, ih hrestSoft hs' (hw.suffix (List.suffix_cons d v)) ?_ hrest⟩
        exact fun hfalse => absurd hfalse Bool.false_ne_true

/-! ### White space that is escaped -/

theorem countP_of_spells {s : Text} {inside : Bool} {w : Text} (h : Spells (classes inside s) w) :
    s.countP (fun c => !isSpace c) + s.countP (fun c => Hard c) ≤ w.countP fun c => !isSpace c := by
  induction s generalizing inside w with
  | nil => simp
  | cons c s ih =>
    rw [classes] at h
    rw [List.countP_cons, List.countP_cons]
    split_ifs at h with hc hspace hinside
    · obtain ⟨u, v, rfl, ⟨hu, hone⟩, u', v', rfl, ⟨hu', hne⟩, hv⟩ := h
      rw [if_neg Bool.false_ne_true] at hone
      rw [if_pos rfl] at hne
      obtain ⟨d, rfl⟩ := List.length_eq_one_iff.mp hone
      obtain ⟨d', u', rfl⟩ := List.exists_cons_of_ne_nil hne
      obtain rfl : d = '\\' := by simpa using hu d (by simp)
      obtain rfl : d' = 's' := by simpa using hu' d' (by simp)
      have hslash : isSpace '\\' = false := by decide
      have hletter : isSpace 's' = false := by decide
      have := ih hv
      simp [List.countP_append, hslash, hletter, hc, hc.2]
      omega
    · have := ih h
      simp [hc, hspace]
      omega
    · obtain ⟨u, v, rfl, -, hv⟩ := h
      have := ih hv
      simp [List.countP_append, hc, hspace]
      omega
    · obtain ⟨u, v, rfl, ⟨hu, hone⟩, hv⟩ := h
      rw [if_neg Bool.false_ne_true] at hone
      obtain ⟨d, rfl⟩ := List.length_eq_one_iff.mp hone
      obtain rfl : d = c := by simpa using hu d (by simp)
      have := ih hv
      simp [hc, hspace]
      omega

/-! ### Trimmed lines -/

def cores (old : Text) : List Text := ((splitLines old).map stripChars).filter (· ≠ [])

theorem flatMap_spaced_filter (lines : List Text) :
    (lines.filter (· ≠ [])).flatMap (spaced true) = lines.flatMap (spaced true) := by
  induction lines with
  | nil => rfl
  | cons l lines ih =>
    by_cases hl : l = []
    · subst hl
      rw [List.filter_cons_of_neg (by simp), List.flatMap_cons, ih]
      rfl
    · rw [List.filter_cons_of_pos (by simpa using hl), List.flatMap_cons, List.flatMap_cons, ih]

theorem flatMap_spaced_stripChars (lines : List Text) :
    (lines.map stripChars).flatMap (spaced true) = lines.flatMap (spaced true) := by
  rw [List.flatMap_map]
  exact List.flatMap_congr fun l _ => spaced_true_stripChars l

theorem flatMap_cores (old : Text) : (cores old).flatMap (spaced true) = spaced true old := by
  have hbreaks : ∀ l : Text, spaced true (l.reverse.dropWhile isLineBreak).reverse = spaced true l := by
    intro l
    have hsplit : (l.reverse.dropWhile isLineBreak).reverse ++ (l.reverse.takeWhile isLineBreak).reverse = l := by
      rw [← List.reverse_append, List.takeWhile_append_dropWhile, List.reverse_reverse]
    conv_rhs => rw [← hsplit]
    refine (spaced_append_spaces fun c hc => ?_).symm
    exact isSpace_of_isLineBreak (List.mem_takeWhile_imp (List.mem_reverse.mp hc))
  rw [cores, flatMap_spaced_filter, flatMap_spaced_stripChars, splitLines, List.flatMap_map]
  calc (splitLinesKeep old).flatMap (fun l => spaced true (l.reverse.dropWhile isLineBreak).reverse)
      = (splitLinesKeep old).flatMap (spaced true) := List.flatMap_congr fun l _ => hbreaks l
    _ = spaced true (splitLinesKeep old).flatten := (spaced_true_flatten (endsInSpace_of_mem [] old)).symm
    _ = spaced true old := by rw [flatten_splitLinesKeep]

theorem mem_dropLast_of_within {lines all : List Text} (h : lines <:+: all) {l : Text} (hl : l ∈ lines.dropLast) :
    l ∈ all.dropLast := by
  obtain ⟨before, after, rfl⟩ := h
  have hne : lines ≠ [] := by
    rintro rfl
    cases hl
  cases after with
  | nil =>
    rw [List.append_nil, List.dropLast_append_of_ne_nil hne]
    exact List.mem_append_right _ hl
  | cons a after =>
    rw [List.dropLast_append_of_ne_nil (List.cons_ne_nil a after)]
    exact List.mem_append_left _ (List.mem_append_right _ (List.dropLast_subset _ hl))

theorem mem_findLineTrimmed {content old : Text} {span : Span} (h : span ∈ findLineTrimmed content old) :
    ∃ i, (((splitLinesKeep content).drop i).take (cores old).length).map stripChars = cores old ∧
      span = ((((splitLinesKeep content).take i).map List.length).sum,
        (((splitLinesKeep content).take i).map List.length).sum +
          ((((splitLinesKeep content).drop i).take (cores old).length).map List.length).sum) := by
  unfold findLineTrimmed at h
  dsimp only at h
  split_ifs at h
  · cases h
  · obtain ⟨i, -, hi⟩ := List.mem_filterMap.mp h
    split_ifs at hi with heq
    exact ⟨i, heq, (Option.some.inj hi).symm⟩

theorem text_lines (lines : List Text) (i n : ℕ) :
    (lines.flatten.take (((lines.take i).map List.length).sum + (((lines.drop i).take n).map List.length).sum)).drop
      ((lines.take i).map List.length).sum = ((lines.drop i).take n).flatten := by
  have hlen : ((lines.take i).map List.length).sum = (lines.take i).flatten.length := List.length_flatten.symm
  have hlen' : (((lines.drop i).take n).map List.length).sum = ((lines.drop i).take n).flatten.length :=
    List.length_flatten.symm
  have hsplit : lines.flatten =
      (lines.take i).flatten ++ (((lines.drop i).take n).flatten ++ ((lines.drop i).drop n).flatten) := by
    rw [← List.flatten_append, List.take_append_drop, ← List.flatten_append, List.take_append_drop]
  have hblock : ∀ a b c : Text, ((a ++ (b ++ c)).take (a.length + b.length)).drop a.length = b := by
    intro a b c
    rw [List.take_length_add_append, List.drop_left, List.take_left]
  rw [hlen, hlen', hsplit]
  exact hblock _ _ _

theorem normalize_findLineTrimmed {content old : Text} {span : Span} (h : span ∈ findLineTrimmed content old) :
    normalize ((content.take span.2).drop span.1) = normalize old := by
  obtain ⟨i, heq, rfl⟩ := mem_findLineTrimmed h
  have hwithin : ((splitLinesKeep content).drop i).take (cores old).length <:+: splitLinesKeep content :=
    (List.take_prefix _ _).isInfix.trans (List.drop_suffix _ _).isInfix
  have htext := text_lines (splitLinesKeep content) i (cores old).length
  rw [flatten_splitLinesKeep] at htext
  rw [htext, normalize_eq_iff,
    spaced_true_flatten fun l hl => endsInSpace_of_mem [] content l (mem_dropLast_of_within hwithin hl),
    ← flatMap_spaced_stripChars, heq, flatMap_cores]

theorem findLineTrimmed_ne_nil_iff {content old : Text} (hne : cores old ≠ []) :
    findLineTrimmed content old ≠ [] ↔ cores old <:+: (splitLinesKeep content).map stripChars := by
  constructor
  · intro h
    obtain ⟨span, hspan⟩ := List.exists_mem_of_ne_nil _ h
    obtain ⟨i, heq, -⟩ := mem_findLineTrimmed hspan
    rw [← heq]
    exact ((List.take_prefix _ _).isInfix.trans (List.drop_suffix _ _).isInfix).map _
  · rintro ⟨before, after, heq⟩
    have hlen := congrArg List.length heq
    simp only [List.length_append, List.length_map] at hlen
    have hblock : (((splitLinesKeep content).drop before.length).take (cores old).length).map stripChars = cores old := by
      rw [List.map_take, List.map_drop, ← heq, List.append_assoc, List.drop_left, List.take_left]
    have hcores : ((splitLines old).map stripChars).filter (· ≠ []) = cores old := rfl
    unfold findLineTrimmed
    rw [hcores]
    dsimp only
    rw [if_neg hne, Ne, List.filterMap_eq_nil_iff]
    intro hnone
    have hmem : before.length ∈ List.range ((splitLinesKeep content).length + 1 - (cores old).length) := by
      rw [List.mem_range]
      omega
    have := hnone _ hmem
    rw [if_pos hblock] at this
    cases this

/-! ### The search -/

def Sound (content old : Text) (spans : List Span) : Prop :=
  ∀ span ∈ spans, normalize ((content.take span.2).drop span.1) = normalize old

def Complete (content old : Text) (spans : List Span) : Prop :=
  (∃ u, u <:+: content ∧ normalize u = normalize old) → spans ≠ []

theorem text_findExact {content old : Text} {span : Span} (h : span ∈ findExact content old) :
    (content.take span.2).drop span.1 = old := by
  rw [findExact_eq] at h
  obtain ⟨p, hp, rfl⟩ := List.mem_map.mp h
  show (content.take (p + old.length)).drop p = old
  rw [List.drop_take, Nat.add_sub_cancel_left]
  exact (List.prefix_iff_eq_take.mp (mem_positions.mp hp).2).symm

theorem normalize_stripChars (s : Text) : normalize (stripChars s) = normalize s := by
  rw [normalize_eq_iff, spaced_true_stripChars]

theorem tight_stripChars (s : Text) : Tight (stripChars s) := fun _ _ => not_isSpace_getLast

theorem drifts_of_normalize_eq {old u : Text} (hsoft : ∀ c ∈ stripChars old, ¬ Hard c)
    (h : normalize u = normalize old) : Drifts (stripChars old) (stripChars u) := by
  have hstrip : ∀ s : Text, spaced false (stripChars s) = normalize s := by
    intro s
    rw [← normalize_stripChars]
    cases hs : stripChars s with
    | nil => rfl
    | cons c t => rw [Lib.PyText.normalize, List.dropWhile_cons_of_neg (not_isSpace_head hs)]
  refine spells_of_spaced hsoft (tight_stripChars old) (tight_stripChars u) (fun hfalse => absurd hfalse (by simp)) ?_
  rw [hstrip, hstrip, h]

theorem normalize_eq_of_drifts {old w : Text} (hsoft : ∀ c ∈ stripChars old, ¬ Hard c)
    (h : Drifts (stripChars old) w) : normalize w = normalize old := by
  rw [normalize_eq_iff, ← spaced_true_stripChars old]
  exact spaced_of_spells hsoft h fun _ => rfl

theorem normalize_ne_of_drifts {old w : Text} (hhard : ∃ c ∈ stripChars old, Hard c) (h : Drifts (stripChars old) w) :
    normalize w ≠ normalize old := by
  intro heq
  have hcount := countP_of_spells h
  have hpos : 0 < (stripChars old).countP fun c => Hard c := by
    rw [List.countP_pos_iff]
    obtain ⟨c, hc, hc'⟩ := hhard
    exact ⟨c, hc, decide_eq_true hc'⟩
  rw [← normalize_stripChars old] at heq
  have hfilter := congrArg List.length (filter_eq_of_normalize_eq heq)
  rw [← List.countP_eq_length_filter, ← List.countP_eq_length_filter] at hfilter
  omega

theorem cores_ne_nil {old : Text} (hold : ∃ c ∈ old, ¬ isSpace c) : cores old ≠ [] := by
  intro hnil
  have hspaced := flatMap_cores old
  rw [hnil] at hspaced
  obtain ⟨c, hc, hspace⟩ := hold
  exact hspace (isSpace_of_spaced_eq_nil hspaced.symm c hc)

theorem findExact_ne_nil_iff {content old : Text} : findExact content old ≠ [] ↔ old <:+: content := by
  refine ⟨fun h => ?_, findExact_ne_nil⟩
  rw [findExact_eq, Ne, List.map_eq_nil_iff] at h
  exact occurs_iff.mp (List.exists_mem_of_ne_nil _ h)

/-- **The search is sound and complete** up to white space if and only if the old text occurs as it is, or by its
trimmed lines, or has no white space between its words that `re.escape` escapes; or if the content has nothing that the
pattern takes, and has the trimmed old text or no text of its normal form. -/
theorem fuzzyFind_iff (parses : Text → Bool) (content old : Text) (hold : ∃ c ∈ old, ¬ isSpace c) :
    Sound content old (fuzzyFind (engine parses) content old).1 ∧
        Complete content old (fuzzyFind (engine parses) content old).1 ↔
      old <:+: content ∨ cores old <:+: (splitLinesKeep content).map stripChars ∨ (∀ c ∈ stripChars old, ¬ Hard c) ∨
        (∀ w, w <:+: content → ¬ Drifts (stripChars old) w) ∧
          (stripChars old <:+: content ∨ ∀ u, u <:+: content → normalize u ≠ normalize old) := by
  have hstrip : stripChars old ≠ [] := by
    intro hnil
    obtain ⟨c, hc, hspace⟩ := hold
    exact hspace (stripChars_eq_nil_iff.mp hnil c hc)
  by_cases hexact : old <:+: content
  · have hfind := findExact_ne_nil_iff.mpr hexact
    rw [fuzzyFind, if_pos hfind]
    refine iff_of_true ⟨fun span hspan => ?_, fun _ => hfind⟩ (Or.inl hexact)
    rw [text_findExact hspan]
  have hnoexact : ¬ findExact content old ≠ [] := fun h => hexact (findExact_ne_nil_iff.mp h)
  by_cases hlines : cores old <:+: (splitLinesKeep content).map stripChars
  · have hfind := (findLineTrimmed_ne_nil_iff (cores_ne_nil hold)).mpr hlines
    rw [fuzzyFind, if_neg hnoexact, if_pos hfind]
    exact iff_of_true ⟨fun span hspan => normalize_findLineTrimmed hspan, fun _ => hfind⟩ (Or.inr (Or.inl hlines))
  have hnolines : ¬ findLineTrimmed content old ≠ [] := fun h =>
    hlines ((findLineTrimmed_ne_nil_iff (cores_ne_nil hold)).mp h)
  have htaken : (engine parses).whitespaceNormalized content old ≠ [] ↔
      ∃ w, w <:+: content ∧ Drifts (stripChars old) w := findWhitespaceNormalized_ne_nil_iff
  by_cases hpattern : ∃ w, w <:+: content ∧ Drifts (stripChars old) w
  · have hfind := htaken.mpr hpattern
    rw [fuzzyFind, if_neg hnoexact, if_neg hnolines, if_pos hfind]
    constructor
    · rintro ⟨hsound, -⟩
      refine Or.inr (Or.inr (Or.inl fun c hc hhard => ?_))
      obtain ⟨span, hspan⟩ := List.exists_mem_of_ne_nil _ hfind
      exact normalize_ne_of_drifts ⟨c, hc, hhard⟩ (findWhitespaceNormalized_spells hspan) (hsound span hspan)
    · rintro (h | h | hsoft | ⟨hnone, -⟩)
      · exact absurd h hexact
      · exact absurd h hlines
      · exact ⟨fun span hspan => normalize_eq_of_drifts hsoft (findWhitespaceNormalized_spells hspan), fun _ => hfind⟩
      · obtain ⟨w, hw, hdrifts⟩ := hpattern
        exact absurd hdrifts (hnone w hw)
  · have hnone : ∀ w, w <:+: content → ¬ Drifts (stripChars old) w := fun w hw hdrifts => hpattern ⟨w, hw, hdrifts⟩
    have hnopattern : ¬ (engine parses).whitespaceNormalized content old ≠ [] := fun h => hpattern (htaken.mp h)
    rw [fuzzyFind, if_neg hnoexact, if_neg hnolines, if_neg hnopattern]
    by_cases hboundary : stripChars old <:+: content
    · have hne : stripChars old ≠ old := fun heq => hexact (heq ▸ hboundary)
      have hfind := findExact_ne_nil_iff.mpr hboundary
      rw [if_pos ⟨hstrip, hne, hfind⟩]
      refine iff_of_true ⟨fun span hspan => ?_, fun _ => hfind⟩ (Or.inr (Or.inr (Or.inr ⟨hnone, Or.inl hboundary⟩)))
      rw [text_findExact hspan, normalize_stripChars]
    · have hnofind : ¬ (stripChars old ≠ [] ∧ stripChars old ≠ old ∧ findExact content (stripChars old) ≠ []) :=
        fun h => hboundary (findExact_ne_nil_iff.mp h.2.2)
      rw [if_neg hnofind]
      constructor
      · rintro ⟨-, hcomplete⟩
        exact Or.inr (Or.inr (Or.inr ⟨hnone, Or.inr fun u hu heq => hcomplete ⟨u, hu, heq⟩ rfl⟩))
      · intro h
        refine ⟨fun span hspan => absurd hspan List.not_mem_nil, ?_⟩
        rintro ⟨u, hu, heq⟩
        rcases h with h | h | hsoft | ⟨-, h | h⟩
        · exact absurd h hexact
        · exact absurd h hlines
        · exact absurd (drifts_of_normalize_eq hsoft heq) (hnone _ ((stripChars_within u).trans hu))
        · exact absurd h hboundary
        · exact absurd heq (h u hu)

/-- White space of the no-break kind is not escaped. -/
theorem fuzzyFind_iff_drift : Sound "a\u00a0 b".toList "a\u00a0b".toList
      (fuzzyFind (engine fun _ => true) "a\u00a0 b".toList "a\u00a0b".toList).1 ∧
    Complete "a\u00a0 b".toList "a\u00a0b".toList
      (fuzzyFind (engine fun _ => true) "a\u00a0 b".toList "a\u00a0b".toList).1 :=
  (fuzzyFind_iff (fun _ => true) "a\u00a0 b".toList "a\u00a0b".toList (by decide)).mpr
    (Or.inr (Or.inr (Or.inl (by decide))))

/-- A second blank is not drift that is found. -/
theorem blanks_not_found : ¬ ∀ (parses : Text → Bool) (content old : Text), (∃ c ∈ old, ¬ isSpace c) →
    Sound content old (fuzzyFind (engine parses) content old).1 ∧
      Complete content old (fuzzyFind (engine parses) content old).1 := by
  intro h
  have hcomplete := (h (fun _ => true) "a  b".toList "a b".toList (by decide)).2
  have hnothing : (fuzzyFind (engine fun _ => true) "a  b".toList "a b".toList).1 = [] := by decide_cbv
  exact hcomplete ⟨"a  b".toList, List.infix_refl _, by decide⟩ hnothing

end Smara.Files.PatchEngine
