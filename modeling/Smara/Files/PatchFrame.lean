import Smara.Files.FuzzyFind
import Smara.Files.PatchDisk
import Smara.Lib.Splices
import Smara.Lib.Utf8Units

/-! # What a patch changes

The bytes of a file are cut into pieces, one for each character that `patch` reads. The bytes outside of the matches are
read, and written again: those that are no UTF-8 come back as U+FFFD, and line ends as those of the system.

* `pieces`: the bytes of each character.
* `Framed`: the file has the bytes that it had, except for those of the matches.
* `patch_framed_iff`: **when that is so**. -/

namespace Smara.Files.PatchEngine

open Lib.PyText Lib.Needle Lib.Utf8 Lib.Regex Lib.Splices

/-! ### Pieces -/

/-- The units, with CR and LF as one. -/
def joined : List (List UInt8) → List (List UInt8)
  | u :: v :: us => if u = [13] ∧ v = [10] then [13, 10] :: joined us else u :: joined (v :: us)
  | [u] => [u]
  | [] => []

/-- **The bytes of each character** of the text that is read. -/
def pieces (bytes : List UInt8) : List (List UInt8) := joined (units bytes)

def pieceChar (piece : List UInt8) : Char := if piece = [13] ∨ piece = [13, 10] then '\n' else charOf piece

theorem charOf_unit {bytes u : List UInt8} (hu : u ∈ units bytes) :
    (charOf u = '\r' ↔ u = [13]) ∧ (charOf u = '\n' ↔ u = [10]) ∧ u ≠ [13, 10] := by
  have hcr : String.utf8EncodeChar '\r' = [13] := by decide
  have hlf : String.utf8EncodeChar '\n' = [10] := by decide
  have hchar : charOf [13] = '\r' ∧ charOf [10] = '\n' ∧ charOf [13, 10] = '\r' := by decide
  rcases unit_cases hu with h | h
  · refine ⟨⟨fun hc => ?_, fun hc => ?_⟩, ⟨fun hc => ?_, fun hc => ?_⟩, fun hc => ?_⟩
    · rw [← h, hc, hcr]
    · rw [hc, hchar.1]
    · rw [← h, hc, hlf]
    · rw [hc, hchar.2.1]
    · rw [hc, hchar.2.2, hcr] at h
      exact absurd h (by decide)
  · have hne : ∀ v : List UInt8, v.head? = some 13 ∨ v.head? = some 10 → u ≠ v := by
      rintro v hv rfl
      have hlow : ∀ c ∈ u.head?, 0x80 ≤ c.toNat := fun c hc => h.high c (List.mem_of_head? hc)
      rcases hv with hv | hv
      · exact absurd (hlow _ hv) (by decide)
      · exact absurd (hlow _ hv) (by decide)
    have hodd : charOf u ≠ '\r' ∧ charOf u ≠ '\n' := by
      rw [h.char]
      decide
    exact ⟨iff_of_false hodd.1 (hne _ (Or.inl rfl)), iff_of_false hodd.2 (hne _ (Or.inr rfl)), hne _ (Or.inl rfl)⟩

theorem universal_cr {s : Text} (h : s.head? ≠ some '\n') : universal ('\r' :: s) = '\n' :: universal s := by
  rw [universal]
  rintro t rfl
  exact h rfl

theorem universal_first {u : List UInt8} (h : (charOf u = '\r' ↔ u = [13]) ∧ (charOf u = '\n' ↔ u = [10]) ∧ u ≠ [13, 10])
    {s : Text} (hs : u = [13] → s.head? ≠ some '\n') : universal (charOf u :: s) = pieceChar u :: universal s := by
  unfold pieceChar
  by_cases hu : u = [13]
  · rw [if_pos (Or.inl hu), h.1.mpr hu, universal_cr (hs hu)]
  · have hnot : ¬ (u = [13] ∨ u = [13, 10]) := fun hor => hor.elim hu h.2.2
    rw [if_neg hnot, universal_cons fun hc => hu (h.1.mp hc)]

theorem map_joined {us : List (List UInt8)}
    (h : ∀ u ∈ us, (charOf u = '\r' ↔ u = [13]) ∧ (charOf u = '\n' ↔ u = [10]) ∧ u ≠ [13, 10]) :
    (joined us).map pieceChar = universal (us.map charOf) := by
  fun_induction joined us with
  | case1 u v us heq ih =>
    obtain ⟨rfl, rfl⟩ := heq
    have hrest := ih fun u hu => h u (List.mem_cons_of_mem _ (List.mem_cons_of_mem _ hu))
    rw [List.map_cons, hrest]
    rfl
  | case2 u v us hne ih =>
    obtain ⟨hu, hrest⟩ := List.forall_mem_cons.mp h
    have hv := (hrest v List.mem_cons_self).2.1
    rw [List.map_cons, ih hrest]
    refine (universal_first hu fun heq hhead => ?_).symm
    exact hne ⟨heq, hv.mp (Option.some.inj hhead)⟩
  | case3 u => exact (universal_first (h u List.mem_cons_self) (s := []) (by simp)).symm
  | case4 => rfl

theorem map_pieces (bytes : List UInt8) : (pieces bytes).map pieceChar = readText bytes := by
  rw [pieces, map_joined fun u hu => charOf_unit hu, readText, decode_eq]

/-! ### Writing a piece again -/

/-- A weight of a byte: line ends count as the system writes more or less of them, and bytes of characters of at most
three bytes count one. -/
def byteWeight (sys : System) (b : UInt8) : ℤ :=
  if b = 13 then (match sys with | .posix => -1 | .windows => 1)
  else if b = 10 then (match sys with | .posix => 0 | .windows => 1)
  else if 0x80 ≤ b.toNat ∧ b.toNat < 0xF0 then 1 else 0

def weight (sys : System) (bytes : List UInt8) : ℤ := (bytes.map (byteWeight sys)).sum

theorem weight_append (sys : System) (a b : List UInt8) : weight sys (a ++ b) = weight sys a + weight sys b := by
  simp [weight]

theorem byteWeight_le (sys : System) (b : UInt8) : byteWeight sys b ≤ 1 := by
  unfold byteWeight
  cases sys <;> split_ifs <;> simp

theorem writeText_char (sys : System) {c : Char} (h : c ≠ '\n') : writeText sys [c] = String.utf8EncodeChar c := by
  simp [writeText, System.expand, h]

theorem mem_joined {us : List (List UInt8)} {u : List UInt8} (h : u ∈ joined us) : u = [13, 10] ∨ u ∈ us := by
  fun_induction joined us with
  | case1 v w us _ ih =>
    rcases List.mem_cons.mp h with rfl | h
    · exact Or.inl rfl
    · exact (ih h).imp_right fun hu => List.mem_cons_of_mem _ (List.mem_cons_of_mem _ hu)
  | case2 v w us _ ih =>
    rcases List.mem_cons.mp h with rfl | h
    · exact Or.inr List.mem_cons_self
    · exact (ih h).imp_right (List.mem_cons_of_mem _)
  | case3 v => exact Or.inr h
  | case4 => cases h

theorem weight_broken (sys : System) {u : List UInt8} (h : Broken u) : weight sys u ≤ 2 := by
  unfold weight
  rcases h.short with hshort | ⟨b, c, d, rfl, hb⟩
  · match u, hshort with
    | [], _ => simp
    | [b], _ =>
      have := byteWeight_le sys b
      simp
      omega
    | [b, c], _ =>
      have := byteWeight_le sys b
      have := byteWeight_le sys c
      simp
      omega
  · have hzero : byteWeight sys b = 0 := by
      have h13 : b ≠ 13 := by
        rintro rfl
        exact absurd hb (by decide)
      have h10 : b ≠ 10 := by
        rintro rfl
        exact absurd hb (by decide)
      unfold byteWeight
      rw [if_neg h13, if_neg h10, if_neg (by omega)]
    have := byteWeight_le sys c
    have := byteWeight_le sys d
    simp [hzero]
    omega

/-- **A piece** is written as it was, or with more weight. -/
theorem piece_cases (sys : System) {bytes piece : List UInt8} (h : piece ∈ pieces bytes) :
    writeText sys [pieceChar piece] = piece ∨ weight sys piece < weight sys (writeText sys [pieceChar piece]) := by
  rcases mem_joined h with rfl | hu
  · cases sys with
    | posix => exact Or.inr (by decide)
    | windows => exact Or.inl (by decide)
  by_cases hcr : piece = [13]
  · subst hcr
    cases sys with
    | posix => exact Or.inr (by decide)
    | windows => exact Or.inr (by decide)
  have hunit := charOf_unit hu
  have hchar : pieceChar piece = charOf piece := if_neg fun hor => hor.elim hcr hunit.2.2
  rw [hchar]
  rcases unit_cases hu with hfull | hbroken
  · by_cases hlf : charOf piece = '\n'
    · obtain rfl := hunit.2.1.mp hlf
      cases sys with
      | posix => exact Or.inl (by decide)
      | windows => exact Or.inr (by decide)
    · rw [writeText_char sys hlf]
      exact Or.inl hfull
  · have hodd : weight sys (String.utf8EncodeChar '\uFFFD') = 3 := by
      cases sys with
      | posix => decide
      | windows => decide
    have := weight_broken sys hbroken
    rw [hbroken.char, writeText_char sys (by decide), hodd]
    exact Or.inr (by omega)

theorem forall_eq_of_flatMap_eq {α : Type*} (sys : System) {f g : α → List UInt8} {t : List α}
    (h : ∀ x ∈ t, f x = g x ∨ weight sys (g x) < weight sys (f x)) (heq : t.flatMap f = t.flatMap g) :
    ∀ x ∈ t, f x = g x := by
  have hle : weight sys (t.flatMap g) ≤ weight sys (t.flatMap f) ∧
      (weight sys (t.flatMap f) ≤ weight sys (t.flatMap g) → ∀ x ∈ t, f x = g x) := by
    clear heq
    induction t with
    | nil => simp
    | cons x t ih =>
      obtain ⟨hx, ht⟩ := List.forall_mem_cons.mp h
      obtain ⟨hle, himp⟩ := ih ht
      rw [List.flatMap_cons, List.flatMap_cons, weight_append, weight_append]
      rcases hx with hx | hx
      · rw [hx]
        refine ⟨by omega, fun hsum => List.forall_mem_cons.mpr ⟨hx, himp (by omega)⟩⟩
      · exact ⟨by omega, fun hsum => absurd hsum (by omega)⟩
  exact hle.2 (by rw [heq])

/-! ### The matches -/

theorem inOrder_findExact (content old : Text) : InOrder (findExact content old) content.length := by
  rw [findExact_eq]
  constructor
  · intro span hspan
    obtain ⟨p, hp, rfl⟩ := List.mem_map.mp hspan
    obtain ⟨hle, hprefix⟩ := mem_positions.mp hp
    have := hprefix.length_le
    rw [List.length_drop] at this
    exact ⟨Nat.le_add_right _ _, show p + old.length ≤ _ by omega⟩
  · rw [List.pairwise_map]
    exact positions_pairwise.imp fun hlt => ⟨hlt.le, Nat.add_le_add_right hlt.le _⟩

theorem sum_take_le (lines : List Text) {i j : ℕ} (h : i ≤ j) :
    ((lines.take i).map List.length).sum ≤ ((lines.take j).map List.length).sum := by
  rw [← Nat.add_sub_of_le h, List.take_add, List.map_append, List.sum_append]
  exact Nat.le_add_right _ _

theorem sum_take_add (lines : List Text) (i n : ℕ) :
    ((lines.take i).map List.length).sum + (((lines.drop i).take n).map List.length).sum =
      ((lines.take (i + n)).map List.length).sum := by
  rw [List.take_add, List.map_append, List.sum_append]

theorem inOrder_findLineTrimmed (content old : Text) : InOrder (findLineTrimmed content old) content.length := by
  have hlen : content.length = ((splitLinesKeep content).map List.length).sum := by
    rw [← List.length_flatten, flatten_splitLinesKeep]
  constructor
  · intro span hspan
    obtain ⟨i, -, rfl⟩ := mem_findLineTrimmed hspan
    refine ⟨Nat.le_add_right _ _, ?_⟩
    dsimp only
    rw [sum_take_add, hlen, ← List.take_length (l := splitLinesKeep content), List.take_take]
    exact sum_take_le _ (Nat.min_le_right _ _)
  · unfold findLineTrimmed
    dsimp only
    split_ifs
    · exact List.Pairwise.nil
    · rw [List.pairwise_filterMap]
      refine List.pairwise_lt_range.imp fun hlt a ha b hb => ?_
      split_ifs at ha hb
      obtain rfl := Option.some.inj ha
      obtain rfl := Option.some.inj hb
      dsimp only
      rw [sum_take_add, sum_take_add]
      exact ⟨sum_take_le _ hlt.le, sum_take_le _ (by omega)⟩

theorem inOrder_findWhitespaceNormalized (content old : Text) :
    InOrder (findWhitespaceNormalized content old) content.length := by
  have hends : ∀ items : List Item, ∀ place, ∀ last ∈ (sequence items).ends content place,
      place.position ≤ last.position := by
    intro items place last hlast
    obtain ⟨w, -, -, rfl⟩ := mem_ends_sequence.mp hlast
    exact Nat.le_add_right _ _
  have hspans : ∀ m ∈ finditer (sequence (compile (normPattern old))) content,
      m.start ≤ m.stop ∧ m.stop ≤ content.length := by
    intro m hm
    obtain ⟨-, hstart, last, hlast, hstop⟩ := mem_finditer hm
    obtain ⟨w, -, hprefix, rfl⟩ := mem_ends_sequence.mp hlast
    have hlen := hprefix.length_le
    rw [List.length_drop] at hlen
    have hstop : m.start + w.length = m.stop := hstop
    dsimp only at hlen
    omega
  constructor
  · intro span hspan
    obtain ⟨m, hm, rfl⟩ := List.mem_map.mp hspan
    exact hspans m hm
  · rw [findWhitespaceNormalized, List.pairwise_map]
    refine (finditer_sorted (hends _)).imp_of_mem fun {a b} ha hb hle => ?_
    have := hspans a ha
    have := hspans b hb
    dsimp only
    omega

theorem inOrder_fuzzyFind (parses : Text → Bool) (content old : Text) :
    InOrder (fuzzyFind (engine parses) content old).1 content.length := by
  unfold fuzzyFind
  split_ifs
  · exact inOrder_findExact _ _
  · exact inOrder_findLineTrimmed _ _
  · exact inOrder_findWhitespaceNormalized _ _
  · exact inOrder_findExact _ _
  · exact ⟨by simp, List.Pairwise.nil⟩

/-! ### The frame -/

def bytesOf (sys : System) (bytes : List UInt8) : ℕ ⊕ Char → List UInt8
  | .inl i => (pieces bytes).getD i []
  | .inr c => writeText sys [c]

/-- **Only the matches have changed**: all pieces outside of them stay, and the file has the bytes that they had, and
those of the replacements. -/
structure Framed (sys : System) (bytes : List UInt8) (repl : Span → Text) (spans : List Span) (written : List UInt8) :
    Prop where
  kept : kept (woven repl spans (pieces bytes).length) = outside spans (pieces bytes).length
  bytes : written = (woven repl spans (pieces bytes).length).flatMap (bytesOf sys bytes)

/-- A piece that is written as it was: it is valid UTF-8, and no line end of another system. -/
def Clean (sys : System) (piece : List UInt8) : Prop := writeText sys [pieceChar piece] = piece

instance (sys : System) (piece : List UInt8) : Decidable (Clean sys piece) :=
  inferInstanceAs (Decidable (_ = _))

theorem writeText_flatMap {α : Type*} (sys : System) (f : α → Char) (t : List α) :
    writeText sys (t.map f) = t.flatMap fun x => writeText sys [f x] := by
  induction t with
  | nil => rfl
  | cons x t ih =>
    have hcons : writeText sys (f x :: t.map f) = writeText sys [f x] ++ writeText sys (t.map f) := by
      simp [writeText, System.expand]
    rw [List.map_cons, hcons, ih, List.flatMap_cons]

/-- The character of a place or of a new one. -/
def charAt (bytes : List UInt8) : ℕ ⊕ Char → Char
  | .inl i => pieceChar ((pieces bytes).getD i [])
  | .inr c => c

theorem writeText_replaceSpans (sys : System) (bytes : List UInt8) (repl : Span → Text) (spans : List Span) :
    writeText sys (replaceSpans repl spans (readText bytes)) =
      (woven repl spans (pieces bytes).length).flatMap fun x => writeText sys [charAt bytes x] := by
  have hpieces : (List.range (pieces bytes).length).map (fun i => (pieces bytes).getD i []) = pieces bytes := by
    refine List.ext_getElem (by simp) fun i hi _ => ?_
    rw [List.length_map, List.length_range] at hi
    simp [hi]
  have htext : ((List.range (pieces bytes).length).map Sum.inl).map (charAt bytes) = readText bytes := by
    rw [List.map_map, ← map_pieces]
    conv_rhs => rw [← hpieces, List.map_map]
    rfl
  have hnew : ∀ span, ((repl span).map Sum.inr).map (charAt bytes) = repl span := by
    intro span
    rw [List.map_map]
    exact List.map_id' _
  rw [← writeText_flatMap, woven, map_replaceSpans, htext]
  simp only [hnew]

theorem length_pieces (bytes : List UInt8) : (pieces bytes).length = (readText bytes).length := by
  rw [← map_pieces, List.length_map]

theorem edited_eq (host : Host) (original old new : Text) (replaceAll : Bool) :
    edited host original old new replaceAll =
      replaceSpans (adaptReplacement original new (fuzzyFind host original old).2) (chosen host original old replaceAll)
        original := rfl

theorem chosen_eq {host : Host} {python : Bool} {original old new : Text} {replaceAll : Bool}
    (h : ¬ Refused host python original old new replaceAll) :
    chosen host original old replaceAll = (fuzzyFind host original old).1 := by
  unfold chosen
  split_ifs with hall
  · rfl
  · refine List.take_of_length_le ?_
    by_contra hlt
    exact h (Or.inl ⟨by omega, by simpa using hall⟩)

theorem framed_iff {sys : System} {bytes : List UInt8} {repl : Span → Text} {spans : List Span}
    (h : InOrder spans (readText bytes).length) :
    Framed sys bytes repl spans (writeText sys (replaceSpans repl spans (readText bytes))) ↔
      Room (fun span => (repl span).length) (readText bytes).length spans ∧
        ∀ i ∈ outside spans (readText bytes).length, Clean sys ((pieces bytes).getD i []) := by
  rw [← length_pieces] at h ⊢
  rw [← kept_woven_iff h]
  constructor
  · rintro ⟨hkept, hbytes⟩
    refine ⟨hkept, fun i hi => ?_⟩
    rw [writeText_replaceSpans] at hbytes
    have hcases : ∀ x ∈ woven repl spans (pieces bytes).length, writeText sys [charAt bytes x] = bytesOf sys bytes x ∨
        weight sys (bytesOf sys bytes x) < weight sys (writeText sys [charAt bytes x]) := by
      intro x hx
      cases x with
      | inr c => exact Or.inl rfl
      | inl i =>
        have hlt : i < (pieces bytes).length := List.mem_range.mp ((kept_woven_sublist h).subset (mem_kept.mpr hx))
        have hpiece : (pieces bytes).getD i [] ∈ pieces bytes := by
          rw [List.getD_eq_getElem?_getD, List.getElem?_eq_getElem hlt]
          exact List.getElem_mem hlt
        exact piece_cases sys hpiece
    rw [← hkept] at hi
    exact forall_eq_of_flatMap_eq sys hcases hbytes _ (mem_kept.mp hi)
  · rintro ⟨hkept, hclean⟩
    refine ⟨hkept, ?_⟩
    rw [writeText_replaceSpans]
    refine List.flatMap_congr fun x hx => ?_
    cases x with
    | inr c => rfl
    | inl i => exact hclean i (hkept ▸ mem_kept.mpr hx)

/-- **What a patch changes.** A successful patch leaves all bytes outside of its matches as they were if and only if
no match is cut behind the replacement of the next one, and those bytes are valid UTF-8 with the line ends of the
system. -/
theorem patch_framed_iff (parses : Text → Bool) (sys : System) (d : Disk) (old new : Text) (replaceAll : Bool)
    (strategy : Strategy) (occurrences : ℕ) (updated : Text)
    (h : (patchDisk (engine parses) sys d old new replaceAll).1 = .applied strategy occurrences updated) :
    Framed sys d.bytes (adaptReplacement (readText d.bytes) new strategy)
        (fuzzyFind (engine parses) (readText d.bytes) old).1
        (patchDisk (engine parses) sys d old new replaceAll).2.bytes ↔
      Room (fun span => (adaptReplacement (readText d.bytes) new strategy span).length) (readText d.bytes).length
          (fuzzyFind (engine parses) (readText d.bytes) old).1 ∧
        ∀ i ∈ outside (fuzzyFind (engine parses) (readText d.bytes) old).1 (readText d.bytes).length,
          Clean sys ((pieces d.bytes).getD i []) := by
  rw [patchDisk_fst] at h
  obtain ⟨-, -, original, horiginal, -, -, hok, rfl, -, rfl⟩ := patch_applied_iff.mp h
  obtain ⟨-, rfl⟩ := content_file horiginal
  rw [patchDisk_of_applied h, edited_eq, chosen_eq hok]
  exact framed_iff (inOrder_fuzzyFind _ _ _)

/-- A line of a file with the line ends of the system. -/
theorem patch_framed_iff_posix : Framed .posix (textFile "a\nb\n").bytes
    (adaptReplacement (readText (textFile "a\nb\n").bytes) "c".toList .exact)
    (fuzzyFind (engine fun _ => true) (readText (textFile "a\nb\n").bytes) "a".toList).1
    (patchDisk (engine fun _ => true) .posix (textFile "a\nb\n") "a".toList "c".toList false).2.bytes := by
  have happlied : patch (engine fun _ => true) (textFile "a\nb\n").file "a".toList "c".toList false =
      .applied .exact 1 "c\nb\n".toList := by decide_cbv
  have hspans : (fuzzyFind (engine fun _ => true) (readText (textFile "a\nb\n").bytes) "a".toList).1 = [(0, 1)] := by
    decide_cbv
  have hpieces : pieces (textFile "a\nb\n").bytes = [[97], [10], [98], [10]] := by decide_cbv
  have hclean : ∀ i ∈ outside [(0, 1)] 4, Clean .posix ([[97], [10], [98], [10]].getD i []) := by decide
  refine (patch_framed_iff (fun _ => true) .posix (textFile "a\nb\n") "a".toList "c".toList false .exact 1
    "c\nb\n".toList (patchDisk_fst.trans happlied)).mpr ?_
  rw [hspans, ← length_pieces, hpieces]
  exact ⟨⟨trivial, by simp [front]⟩, hclean⟩

/-- CR before LF is lost on a system that writes LF. -/
theorem carriage_returns_lost : ¬ ∀ (parses : Text → Bool) (sys : System) (d : Disk) (old new : Text)
    (replaceAll : Bool) (strategy : Strategy) (occurrences : ℕ) (updated : Text),
    (patchDisk (engine parses) sys d old new replaceAll).1 = .applied strategy occurrences updated →
      Framed sys d.bytes (adaptReplacement (readText d.bytes) new strategy)
        (fuzzyFind (engine parses) (readText d.bytes) old).1
        (patchDisk (engine parses) sys d old new replaceAll).2.bytes := by
  intro h
  have hcall : patchDisk (engine fun _ => true) .posix (textFile "a\r\nb\r\n") "a".toList "c".toList false =
      (.applied .exact 1 "c\nb\n".toList, textFile "c\nb\n") := by decide_cbv
  have hspans : (fuzzyFind (engine fun _ => true) (readText (textFile "a\r\nb\r\n").bytes) "a".toList).1 =
      [(0, 1)] := by decide_cbv
  have hpieces : pieces (textFile "a\r\nb\r\n").bytes = [[97], [13, 10], [98], [13, 10]] := by decide_cbv
  have hadapted : adaptReplacement (readText (textFile "a\r\nb\r\n").bytes) "c".toList .exact (0, 1) = ['c'] := by
    decide_cbv
  have hbytes : bytesOf .posix (textFile "a\r\nb\r\n").bytes =
      Sum.elim (fun i => [[97], [13, 10], [98], [13, 10]].getD i []) fun c => writeText .posix [c] := by
    funext x
    cases x with
    | inl i => exact congrArg (fun ps : List (List UInt8) => ps.getD i []) hpieces
    | inr c => rfl
  have hframed := (h (fun _ => true) .posix (textFile "a\r\nb\r\n") "a".toList "c".toList false .exact 1
    "c\nb\n".toList (by rw [hcall])).bytes
  rw [hcall, hspans, hbytes, hpieces, woven, replaceSpans, List.foldr_cons, List.foldr_nil, hadapted] at hframed
  revert hframed
  decide

end Smara.Files.PatchEngine
