import Mathlib
import Smara.Lib.Each
import Smara.Lib.PyText

/-! # Tax numbers

`check_gstin_status` checks the shape of a GSTIN, its state code and its check character. Its regular expression
takes decimal digits of any script, which the alphabet of the check character does not have.

* `checksumChar`: the check character of the first 14 characters.
* `checkGstinStatus`: the check.
* `WellFormed`: the documented shape with ASCII digits, a known state, and a sum that 36 divides.
* `share_injective`: a changed character changes the sum modulo 36, also where it counts twice.
* `exact_iff`: the check is exact unless a digit of another script stands in a number with a known state. -/

namespace Smara.Server.Gstin

open Lib.Each Lib.Letters Lib.PyText

abbrev Text := List Char

/-! ### Characters -/

/-- What Unicode says of characters: `str.upper`, and the value of a decimal digit, which `\d` matches. -/
structure Unicode where
  upper : Char → Text
  decimal : Char → Option ℕ
  upper_ascii : ∀ c, c.toNat < 128 → upper c = [c.toUpper]
  upper_line : ∀ c, '\n' ∈ upper c → c = '\n'
  decimal_ascii : ∀ c, c.toNat < 128 → decimal c = if c.isDigit then some (c.toNat - 48) else none

def alphabet : Text := "0123456789ABCDEFGHIJKLMNOPQRSTUVWXYZ".toList

/-- The characters that `_SHAPE` asks for. -/
inductive Kind
  | digit | letter | entity | zed | figure

/-- The character is of the kind; what counts as a digit is given. -/
def Kind.test (isDigit : Char → Bool) (c : Char) : Kind → Bool
  | .digit => isDigit c
  | .letter => 'A' ≤ c && c ≤ 'Z'
  | .entity => c ∈ alphabet && c ≠ '0'
  | .zed => c = 'Z'
  | .figure => c ∈ alphabet

/-- `(\d{2})([A-Z]{5}\d{4}[A-Z])([1-9A-Z])Z([0-9A-Z])` -/
def template : List Kind :=
  [.digit, .digit, .letter, .letter, .letter, .letter, .letter, .digit, .digit, .digit, .digit, .letter, .entity, .zed,
    .figure]

/-- The characters are those of the shape. -/
def Fits (isDigit : Char → Bool) (g : Text) : Prop := List.Forall₂ (fun k c => k.test isDigit c = true) template g

instance (isDigit : Char → Bool) (g : Text) : Decidable (Fits isDigit g) :=
  inferInstanceAs (Decidable (List.Forall₂ _ _ _))

/-- `int(m.group(1))`, with the values of the digits -/
def stateCode (value : Char → ℕ) (g : Text) : ℕ := (g.take 2).foldl (fun n c => 10 * n + value c) 0

/-- `1 <= state <= 38 or state in (97, 99)` -/
def knownState (n : ℕ) : Bool := (1 ≤ n && n ≤ 38) || n = 97 || n = 99

/-! ### The check -/

/-- `1 if i % 2 == 0 else 2` -/
def weight (i : ℕ) : ℕ := if i % 2 = 0 then 1 else 2

/-- What a character adds to the total: `v // 36 + v % 36`. -/
def share (i v : ℕ) : ℕ := v * weight i / 36 + v * weight i % 36

/-- The loop of `checksum_char`; `none` is the `ValueError` of `_ALPHABET.index`. -/
def total : ℕ → Text → Option ℕ
  | _, [] => some 0
  | i, c :: cs => if c ∈ alphabet then (total (i + 1) cs).map (share i (alphabet.idxOf c) + ·) else none

def checksumChar (first14 : Text) : Option Char :=
  (total 0 first14).bind fun n => alphabet[(36 - n % 36) % 36]?

/-- What the call returns beside the number and the link of the portal. -/
inductive Verdict
  | badFormat
  | unknownState (code : Text)
  | mismatch
  | valid (stateCode pan : Text)
  deriving DecidableEq

structure Status where
  gstin : Text
  verdict : Verdict
  deriving DecidableEq

/-- `valid=True` -/
def Status.Valid (s : Status) : Prop := ∃ code pan, s.verdict = .valid code pan

variable (u : Unicode)

/-- `re.sub(r"\s", "", gstin).upper()` -/
def normalized (gstin : Text) : Text := (gstin.filter fun c => !isSpace c).flatMap u.upper

/-- `_SHAPE.match`; `$` also matches before a line feed at the end. -/
def Matches (g : Text) : Prop :=
  Fits (fun c => (u.decimal c).isSome) (g.take 15) ∧ (g.drop 15 = [] ∨ g.drop 15 = ['\n'])

instance (g : Text) : Decidable (Matches u g) := inferInstanceAs (Decidable (_ ∧ _))

def Known (g : Text) : Prop := knownState (stateCode (fun c => (u.decimal c).getD 0) g)

instance (g : Text) : Decidable (Known u g) := inferInstanceAs (Decidable (knownState _ = true))

/-- **`check_gstin_status`**; `none` is a `ValueError`. -/
def checkGstinStatus (gstin : Text) : Option Status :=
  let g := normalized u gstin
  if ¬ Matches u g then some ⟨g, .badFormat⟩
  else if ¬ Known u g then some ⟨g, .unknownState (g.take 2)⟩
  else (checksumChar (g.take 14)).map fun c =>
    ⟨g, if some c ≠ g[14]? then .mismatch else .valid (g.take 2) ((g.drop 2).take 10)⟩

/-! ### Well-formed numbers -/

/-- The sum of what the characters add. -/
def shares : ℕ → Text → ℕ
  | _, [] => 0
  | i, c :: cs => share i (alphabet.idxOf c) + shares (i + 1) cs

/-- **A well-formed number**: 15 ASCII characters of the shape, a known state, and the check character for which 36
divides the sum. -/
structure WellFormed (g : Text) : Prop where
  fits : Fits Char.isDigit g
  state : knownState (stateCode (fun c => c.toNat - 48) g)
  sum : 36 ∣ shares 0 g

/-- **A digit of another script** in a number with a known state. -/
def Foreign (gstin : Text) : Prop :=
  Matches u (normalized u gstin) ∧ Known u (normalized u gstin) ∧ ∃ c ∈ normalized u gstin, 128 ≤ c.toNat

instance (gstin : Text) : Decidable (Foreign u gstin) := inferInstanceAs (Decidable (_ ∧ _ ∧ _))

/-! ### Sums -/

variable {u} {g cs : Text} {c : Char}

theorem shares_append (i : ℕ) (xs ys : Text) : shares i (xs ++ ys) = shares i xs + shares (i + xs.length) ys := by
  induction xs generalizing i with
  | nil => simp [shares]
  | cons x xs ih =>
    have hlength : i + (x :: xs).length = i + 1 + xs.length := by rw [List.length_cons]; omega
    rw [List.cons_append, shares, shares, ih, hlength]
    omega

theorem total_eq (h : ∀ c ∈ cs, c ∈ alphabet) (i : ℕ) : total i cs = some (shares i cs) := by
  induction cs generalizing i with
  | nil => rfl
  | cons c cs ih =>
    have hcs := ih (fun d hd => h d (List.mem_cons_of_mem _ hd)) (i + 1)
    rw [total, if_pos (h c List.mem_cons_self), hcs]
    rfl

theorem total_eq_none (hc : c ∈ cs) (hnot : c ∉ alphabet) (i : ℕ) : total i cs = none := by
  induction cs generalizing i with
  | nil => exact absurd hc List.not_mem_nil
  | cons d cs ih =>
    rw [total]
    split_ifs with hd
    · rcases List.mem_cons.mp hc with rfl | hc
      · exact absurd hd hnot
      · rw [ih hc]
        rfl
    · rfl

theorem idxOf_lt (h : c ∈ alphabet) : alphabet.idxOf c < 36 := List.idxOf_lt_length_of_mem h

theorem share_lt {i v : ℕ} (h : v < 36) : share i v < 36 := by
  unfold share weight
  split_ifs
  · omega
  · omega

/-- **Doubling permutes the values** modulo 36, as its two digits are added. -/
theorem share_injective {i v w : ℕ} (hv : v < 36) (hw : w < 36) (h : share i v = share i w) : v = w := by
  unfold share weight at h
  split_ifs at h
  · omega
  · omega

theorem share_even {v : ℕ} (h : v < 36) : share 14 v = v := by
  show v * 1 / 36 + v * 1 % 36 = v
  omega

/-- **The check character** is the one for which 36 divides the sum. -/
theorem checksum_iff {n : ℕ} (h : c ∈ alphabet) :
    alphabet[(36 - n % 36) % 36]? = some c ↔ 36 ∣ n + alphabet.idxOf c := by
  have hlt := idxOf_lt h
  have hat : alphabet[alphabet.idxOf c]? = some c := by
    rw [List.getElem?_eq_getElem (List.idxOf_lt_length_of_mem h), List.getElem_idxOf]
  have hnodup : alphabet.Nodup := by decide
  have hk : (36 - n % 36) % 36 < alphabet.length := Nat.mod_lt _ (by decide)
  constructor
  · intro heq
    have hsame : (36 - n % 36) % 36 = alphabet.idxOf c := by
      rw [List.getElem?_eq_getElem hk] at heq
      rw [← Option.some.inj heq, hnodup.idxOf_getElem]
    omega
  · intro hdvd
    have hsame : (36 - n % 36) % 36 = alphabet.idxOf c := by omega
    rw [hsame, hat]

/-! ### Shapes -/

theorem fits_of_mem {d d' : Char → Bool} (h : Fits d g) (hsame : ∀ c ∈ g, d c = d' c) : Fits d' g := by
  unfold Fits at h ⊢
  generalize template = ks at h ⊢
  induction h with
  | nil => exact .nil
  | @cons k c ks cs hk _ ih =>
    refine .cons ?_ (ih fun x hx => hsame x (List.mem_cons_of_mem _ hx))
    have hc := hsame c List.mem_cons_self
    cases k <;> simp_all [Kind.test]

theorem Fits.length {d : Char → Bool} (h : Fits d g) : g.length = 15 := (List.Forall₂.length_eq h).symm

theorem ascii_of_mem (h : c ∈ alphabet) : c.toNat < 128 := by
  have hall : ∀ c ∈ alphabet, c.toNat < 128 := by decide
  exact hall c h

theorem mem_of_ascii (hc : c.toNat < 128) (h : c.isDigit ∨ 'A' ≤ c ∧ c ≤ 'Z') : c ∈ alphabet := by
  have hall : ∀ n < 128, (Char.ofNat n).isDigit ∨ 'A' ≤ Char.ofNat n ∧ Char.ofNat n ≤ 'Z' → Char.ofNat n ∈ alphabet := by
    decide
  have hmem := hall c.toNat hc
  rw [Char.ofNat_toNat] at hmem
  exact hmem h

theorem isDigit_lt (h : c.isDigit) : c.toNat < 128 := by
  have hle : c ≤ '9' := by simp [Char.isDigit] at h; exact h.2
  exact Nat.lt_of_le_of_lt (show c.toNat ≤ 57 from hle) (by decide)

theorem letter_lt (h : c ≤ 'Z') : c.toNat < 128 := Nat.lt_of_le_of_lt (show c.toNat ≤ 90 from h) (by decide)

theorem mem_of_test {d : Char → Bool} {k : Kind} (h : k.test d c = true) (hd : d c = true → c.isDigit) :
    c ∈ alphabet := by
  cases k with
  | digit => exact mem_of_ascii (isDigit_lt (hd h)) (Or.inl (hd h))
  | letter =>
    have hletter : 'A' ≤ c ∧ c ≤ 'Z' := by simpa [Kind.test] using h
    exact mem_of_ascii (letter_lt hletter.2) (Or.inr hletter)
  | entity => exact (show c ∈ alphabet ∧ c ≠ '0' by simpa [Kind.test] using h).1
  | zed =>
    obtain rfl : c = 'Z' := by simpa [Kind.test] using h
    decide
  | figure => simpa [Kind.test] using h

theorem Fits.mem {d : Char → Bool} (h : Fits d g) (hd : ∀ c ∈ g, d c = true → c.isDigit) (hc : c ∈ g) :
    c ∈ alphabet := by
  obtain ⟨k, -, hk⟩ := forall₂_mem_right h hc
  exact mem_of_test hk (hd c hc)

theorem Fits.snoc {d : Char → Bool} (h : Fits d g) :
    ∃ k ∈ alphabet, g[14]? = some k ∧ g = g.take 14 ++ [k] := by
  obtain ⟨init, k, hg, hlast, hinit⟩ : ∃ init k, g = init ++ [k] ∧ k ∈ alphabet ∧ init.length = 14 := by
    rcases List.eq_nil_or_concat g with rfl | ⟨init, k, hconcat⟩
    · exact absurd h.length (by decide)
    · rw [List.concat_eq_append] at hconcat
      have hlength := h.length
      rw [hconcat, List.length_append, List.length_singleton] at hlength
      refine ⟨init, k, hconcat, ?_, by omega⟩
      rw [hconcat] at h
      have htemplate : template = template.take 14 ++ [.figure] := rfl
      unfold Fits at h
      rw [htemplate] at h
      have hboth := List.forall₂_reverse_iff.mpr h
      rw [List.reverse_append, List.reverse_append] at hboth
      simpa [Kind.test] using (List.forall₂_cons.mp hboth).1
  have htake : g.take 14 = init := by rw [hg, ← hinit, List.take_left']; rfl
  refine ⟨k, hlast, ?_, by rw [htake, ← hg]⟩
  rw [hg, ← hinit, List.getElem?_append_right (Nat.le_refl _), Nat.sub_self]
  rfl

/-! ### The check of a number -/

theorem line_notMem (gstin : Text) : '\n' ∉ normalized u gstin := by
  intro hmem
  obtain ⟨c, hc, hline⟩ := List.mem_flatMap.mp hmem
  obtain rfl := u.upper_line c hline
  exact absurd (List.mem_filter.mp hc).2 (by decide)

theorem matches_iff (hline : '\n' ∉ g) : Matches u g ↔ Fits (fun c => (u.decimal c).isSome) g := by
  constructor
  · rintro ⟨hfits, hrest | hrest⟩
    · rwa [List.take_of_length_le (List.drop_eq_nil_iff.mp hrest)] at hfits
    · have hmem : '\n' ∈ g.drop 15 := by
        rw [hrest]
        exact List.mem_singleton_self _
      exact absurd (List.mem_of_mem_drop hmem) hline
  · intro hfits
    have hlength := hfits.length
    refine ⟨?_, Or.inl (List.drop_eq_nil_iff.mpr (by omega))⟩
    rwa [List.take_of_length_le (by omega)]

theorem decimal_isSome (hc : c.toNat < 128) : (u.decimal c).isSome = c.isDigit := by
  rw [u.decimal_ascii c hc]
  cases c.isDigit
  · rfl
  · rfl

theorem known_iff (hfits : Fits Char.isDigit g) : Known u g ↔ knownState (stateCode (fun c => c.toNat - 48) g) := by
  have hvalue : ∀ c, c.isDigit → (u.decimal c).getD 0 = c.toNat - 48 := by
    intro c hc
    rw [u.decimal_ascii c (isDigit_lt hc), if_pos hc]
    rfl
  obtain ⟨a, g₁, ha, hg₁, rfl⟩ := List.forall₂_cons_left_iff.mp hfits
  obtain ⟨b, g₂, hb, -, rfl⟩ := List.forall₂_cons_left_iff.mp hg₁
  have hcode : stateCode (fun c => (u.decimal c).getD 0) (a :: b :: g₂) =
      stateCode (fun c => c.toNat - 48) (a :: b :: g₂) := by
    show 10 * (10 * 0 + (u.decimal a).getD 0) + (u.decimal b).getD 0 = 10 * (10 * 0 + (a.toNat - 48)) + (b.toNat - 48)
    rw [hvalue a ha, hvalue b hb]
  unfold Known
  rw [hcode]

theorem WellFormed.ascii (h : WellFormed g) (hc : c ∈ g) : c.toNat < 128 :=
  ascii_of_mem (h.fits.mem (fun _ _ hd => hd) hc)

theorem fits_iff (hascii : ∀ c ∈ g, c.toNat < 128) :
    Fits (fun c => (u.decimal c).isSome) g ↔ Fits Char.isDigit g :=
  ⟨fun h => fits_of_mem h fun c hc => decimal_isSome (hascii c hc),
    fun h => fits_of_mem h fun c hc => (decimal_isSome (hascii c hc)).symm⟩

theorem not_valid {g : Text} {v : Verdict} (h : ∀ code pan, v ≠ .valid code pan) : ¬ (⟨g, v⟩ : Status).Valid := by
  rintro ⟨code, pan, heq⟩
  exact h code pan heq

/-- **The check of a number without foreign digits.** -/
theorem check_of_not_foreign (gstin : Text) (h : ¬ Foreign u gstin) :
    ∃ s, checkGstinStatus u gstin = some s ∧ (s.Valid ↔ WellFormed (normalized u gstin)) := by
  have hline := line_notMem (u := u) gstin
  unfold Foreign at h
  unfold checkGstinStatus
  simp only
  generalize normalized u gstin = g at h hline ⊢
  by_cases hmatch : Matches u g
  swap
  · rw [if_pos hmatch]
    refine ⟨_, rfl, iff_of_false (not_valid fun _ _ => Verdict.noConfusion) fun hwell => hmatch ?_⟩
    exact (matches_iff hline).mpr ((fits_iff fun c hc => hwell.ascii hc).mpr hwell.fits)
  rw [if_neg (not_not.mpr hmatch)]
  by_cases hknown : Known u g
  swap
  · rw [if_pos hknown]
    refine ⟨_, rfl, iff_of_false (not_valid fun _ _ => Verdict.noConfusion) fun hwell => hknown ?_⟩
    exact (known_iff hwell.fits).mpr hwell.state
  rw [if_neg (not_not.mpr hknown)]
  have hascii : ∀ c ∈ g, c.toNat < 128 := by
    intro c hc
    by_contra hle
    exact h ⟨hmatch, hknown, c, hc, Nat.not_lt.mp hle⟩
  have hfits := (fits_iff hascii).mp ((matches_iff hline).mp hmatch)
  have halphabet : ∀ c ∈ g.take 14, c ∈ alphabet :=
    fun c hc => hfits.mem (fun _ _ hd => hd) (List.mem_of_mem_take hc)
  obtain ⟨k, hk, hat, hsnoc⟩ := hfits.snoc
  have hpos : (36 - shares 0 (g.take 14) % 36) % 36 < alphabet.length := Nat.mod_lt _ (by decide)
  have hchecksum : checksumChar (g.take 14) = some alphabet[(36 - shares 0 (g.take 14) % 36) % 36] := by
    unfold checksumChar
    rw [total_eq halphabet]
    exact List.getElem?_eq_getElem hpos
  have hsum : shares 0 g = shares 0 (g.take 14) + alphabet.idxOf k := by
    have hlength : (g.take 14).length = 14 := by
      have := hfits.length
      rw [List.length_take]
      omega
    conv_lhs => rw [hsnoc, shares_append, hlength]
    show _ + (share 14 (alphabet.idxOf k) + 0) = _
    rw [share_even (idxOf_lt hk), Nat.add_zero]
  have hiff := checksum_iff (n := shares 0 (g.take 14)) hk
  rw [List.getElem?_eq_getElem hpos, ← hsum] at hiff
  rw [hchecksum, Option.map_some]
  refine ⟨_, rfl, ?_⟩
  rw [hat]
  split_ifs with hne
  · refine iff_of_false (not_valid fun _ _ => Verdict.noConfusion) fun hwell => hne (hiff.mpr hwell.sum)
  · exact iff_of_true ⟨_, _, rfl⟩ ⟨hfits, (known_iff hfits).mp hknown, hiff.mp (not_not.mp hne)⟩

/-- **A foreign digit** has no place in the alphabet. -/
theorem check_of_foreign (gstin : Text) (h : Foreign u gstin) : checkGstinStatus u gstin = none := by
  have hline := line_notMem (u := u) gstin
  unfold Foreign at h
  unfold checkGstinStatus
  simp only
  generalize normalized u gstin = g at h hline ⊢
  obtain ⟨hmatch, hknown, c, hc, hforeign⟩ := h
  have hnot : c ∉ alphabet := fun hmem => absurd (ascii_of_mem hmem) (Nat.not_lt.mpr hforeign)
  obtain ⟨k, hk, -, hsnoc⟩ := ((matches_iff hline).mp hmatch).snoc
  have htake : c ∈ g.take 14 := by
    rw [hsnoc] at hc
    rcases List.mem_append.mp hc with hc | hc
    · exact hc
    · exact absurd (List.mem_singleton.mp hc ▸ hk) hnot
  rw [if_neg (not_not.mpr hmatch), if_neg (not_not.mpr hknown), checksumChar, total_eq_none htake hnot]
  rfl

/-! ### One wrong character -/

theorem normalized_eq_self (h : ∀ c ∈ g, c ∈ alphabet) : normalized u g = g := by
  have hall : ∀ c ∈ alphabet, isSpace c = false ∧ c.toUpper = c := by decide
  have hfilter : g.filter (fun c => !isSpace c) = g :=
    List.filter_eq_self.mpr fun c hc => by rw [(hall c (h c hc)).1]; rfl
  unfold normalized
  rw [hfilter]
  conv_rhs => rw [← List.flatMap_singleton' g]
  exact List.flatMap_congr fun c hc => by rw [u.upper_ascii c (ascii_of_mem (h c hc)), (hall c (h c hc)).2]

theorem shares_set {i j : ℕ} (hj : j < g.length) (hsame : shares i g % 36 = shares i (g.set j c) % 36)
    (hg : ∀ d ∈ g, d ∈ alphabet) (hc : c ∈ alphabet) : g[j]? = some c := by
  induction g generalizing i j with
  | nil => exact absurd hj (Nat.not_lt_zero _)
  | cons d g ih =>
    cases j with
    | zero =>
      rw [List.set_cons_zero, shares, shares] at hsame
      have hd := hg d List.mem_cons_self
      have hlt := share_lt (i := i) (idxOf_lt hd)
      have hlt' := share_lt (i := i) (idxOf_lt hc)
      have hidx := share_injective (idxOf_lt hd) (idxOf_lt hc) (show share i _ = share i _ by omega)
      rw [List.getElem?_cons_zero, ← List.getElem_idxOf (List.idxOf_lt_length_of_mem hd)]
      simp only [hidx, List.getElem_idxOf]
    | succ j =>
      rw [List.set_cons_succ, shares, shares] at hsame
      have htail : shares (i + 1) g % 36 = shares (i + 1) (g.set j c) % 36 := by omega
      rw [List.getElem?_cons_succ]
      exact ih (by simpa using hj) htail fun e he => hg e (List.mem_cons_of_mem _ he)

/-- **Two well-formed numbers** differ in more than one character. -/
theorem not_wellFormed_set {j : ℕ} (h : WellFormed g) (hj : j < 14) (hc : c ∈ alphabet) (hne : g[j]? ≠ some c) :
    ¬ WellFormed (g.set j c) := by
  intro h'
  have hmem : ∀ d ∈ g, d ∈ alphabet := fun d hd => h.fits.mem (fun _ _ hd => hd) hd
  have hlength := h.fits.length
  have hsum := h.sum
  have hsum' := h'.sum
  exact hne (shares_set (i := 0) (by omega) (by omega) hmem hc)

/-- **The check is exact on a text**: it returns, says valid of the well-formed numbers, and finds one character out of
place in a valid number. -/
structure Exact (u : Unicode) (gstin : Text) : Prop where
  returns : ∃ s, checkGstinStatus u gstin = some s ∧ (s.Valid ↔ WellFormed (normalized u gstin))
  detects : ∀ s, checkGstinStatus u gstin = some s → s.Valid → ∀ j < 14, ∀ c ∈ alphabet,
    (normalized u gstin)[j]? ≠ some c → ∃ s', checkGstinStatus u ((normalized u gstin).set j c) = some s' ∧ ¬ s'.Valid

/-- **The check is exact** unless a digit of another script stands in a number of the shape with a known state. -/
theorem exact_iff (u : Unicode) (gstin : Text) : Exact u gstin ↔ ¬ Foreign u gstin := by
  constructor
  · rintro ⟨⟨s, hs, -⟩, -⟩ hforeign
    rw [check_of_foreign gstin hforeign] at hs
    cases hs
  · intro h
    obtain ⟨s, hs, hvalid⟩ := check_of_not_foreign gstin h
    refine ⟨⟨s, hs, hvalid⟩, fun s₁ hs₁ hv j hj c hc hne => ?_⟩
    obtain rfl := Option.some.inj (hs.symm.trans hs₁)
    have hwell := hvalid.mp hv
    have hmem : ∀ d ∈ (normalized u gstin).set j c, d ∈ alphabet := by
      intro d hd
      rcases List.mem_or_eq_of_mem_set hd with hd | rfl
      · exact hwell.fits.mem (fun _ _ hd => hd) hd
      · exact hc
    have hself := normalized_eq_self (u := u) hmem
    have hhome : ¬ Foreign u ((normalized u gstin).set j c) := by
      rintro ⟨-, -, d, hd, hforeign⟩
      rw [hself] at hd
      exact absurd (ascii_of_mem (hmem d hd)) (Nat.not_lt.mpr hforeign)
    obtain ⟨s', hs', hvalid'⟩ := check_of_not_foreign _ hhome
    rw [hself] at hvalid'
    exact ⟨s', hs', fun hv' => not_wellFormed_set hwell hj hc hne (hvalid'.mp hv')⟩

/-- The value of a digit of ASCII, or of an Arabic-Indic one. -/
def arabicDecimal (c : Char) : Option ℕ :=
  if c.isDigit then some (c.toNat - 48)
  else if 0x660 ≤ c.toNat ∧ c.toNat < 0x66A then some (c.toNat - 0x660) else none

theorem line_of_toUpper (c : Char) (h : '\n' ∈ [c.toUpper]) : c = '\n' := by
  have heq := List.mem_singleton.mp h
  by_cases hc : c.toNat < 128
  · have hall : ∀ n < 128, '\n' = (Char.ofNat n).toUpper → Char.ofNat n = '\n' := by decide
    have hline := hall c.toNat hc
    rw [Char.ofNat_toNat] at hline
    exact hline heq
  · have hnot : ¬ ('a'.val ≤ c.val ∧ c.val ≤ 'z'.val) := fun hz =>
      hc (Nat.lt_of_le_of_lt (show c.toNat ≤ 122 from hz.2) (by decide))
    rw [Char.toUpper, dif_neg hnot] at heq
    exact heq.symm

theorem arabicDecimal_ascii (c : Char) (hc : c.toNat < 128) :
    arabicDecimal c = if c.isDigit then some (c.toNat - 48) else none := by
  have hlow : ¬ (0x660 ≤ c.toNat ∧ c.toNat < 0x66A) := by omega
  unfold arabicDecimal
  rw [if_neg hlow]

theorem toUpper_ascii (c : Char) (_ : c.toNat < 128) : [c.toUpper] = [c.toUpper] := rfl

/-- Unicode with the Arabic-Indic digits beside ASCII. -/
def arabic : Unicode := ⟨fun c => [c.toUpper], arabicDecimal, toUpper_ascii, line_of_toUpper, arabicDecimal_ascii⟩

/-- Arabic digits raise a `ValueError`. -/
theorem arabic_digit_raises : ¬ ∀ gstin, Exact arabic gstin := by
  intro h
  obtain ⟨s, hs, -⟩ := (h "27AAPFU093٩F1ZV".toList).returns
  rw [check_of_foreign _ (by decide)] at hs
  cases hs

end Smara.Server.Gstin
