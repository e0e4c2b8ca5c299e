import Smara.Lib.Utf8

/-! # Percent encoding

A text is written into an address as its bytes in UTF-8, each that is not plain as a percent sign and two hexadecimal
digits. A query is a list of fields between ampersands, each with a name and a value.

* `quote`, `unquote`: a text as it is written and as it is read.
* `parseQuery`: the fields of a query.
* `unquote_quote`: a text is read as it was.
* `parseQuery_fields`: so are the fields of a query whose names and values hold no mark of it. -/

namespace Smara.Lib.Percent

open Lib.Utf8

/-! ### Writing -/

/-- `%02X` -/
def hexDigit (n : ℕ) : Char := n.digitChar.toUpper

def Unreserved (c : Char) : Prop := c.isAlphanum ∨ c ∈ ['_', '.', '-', '~']

instance : DecidablePred Unreserved := fun _ => inferInstanceAs (Decidable (_ ∨ _))

def quoteByte (safe : List Char) (b : UInt8) : List Char :=
  if b.toNat < 128 ∧ (Unreserved (Char.ofNat b.toNat) ∨ Char.ofNat b.toNat ∈ safe) then [Char.ofNat b.toNat]
  else ['%', hexDigit (b.toNat / 16), hexDigit (b.toNat % 16)]

/-- `quote(s, safe=…)` -/
def quote (safe s : List Char) : List Char := (encode s).flatMap (quoteByte safe)

/-! ### Reading -/

def hexValue (c : Char) : Option ℕ :=
  if c.isDigit then some (c.toNat - 48)
  else if 'A' ≤ c ∧ c ≤ 'F' then some (c.toNat - 55)
  else if 'a' ≤ c ∧ c ≤ 'f' then some (c.toNat - 87)
  else none

/-- `unquote_to_bytes(s)` -/
def unquoteBytes : List Char → List UInt8
  | '%' :: a :: b :: s =>
    match hexValue a, hexValue b with
    | some x, some y => UInt8.ofNat (16 * x + y) :: unquoteBytes s
    | _, _ => 0x25 :: unquoteBytes (a :: b :: s)
  | c :: s => String.utf8EncodeChar c ++ unquoteBytes s
  | [] => []

/-- `unquote(s, errors="replace")` -/
def unquote (s : List Char) : List Char := decode (unquoteBytes s)

/-- `unquote_plus(s)` -/
def unquotePlus (s : List Char) : List Char := unquote (s.map fun c => if c = '+' then ' ' else c)

def field (s : List Char) : List Char × List Char :=
  (unquotePlus (s.takeWhile (· ≠ '=')), unquotePlus ((s.dropWhile (· ≠ '=')).drop 1))

/-- `parse_qsl(s, keep_blank_values=True)` -/
def parseQuery (s : List Char) : List (List Char × List Char) :=
  ((s.splitOn '&').filter fun f => f ≠ []).map field

/-! ### Round trips -/

variable {safe s : List Char}

theorem hexValue_hexDigit {n : ℕ} (h : n < 16) : hexValue (hexDigit n) = some n := by
  have hall : ∀ n < 16, hexValue (hexDigit n) = some n := by decide
  exact hall n h

theorem unquoteBytes_of_ne {c : Char} (h : c ≠ '%') (s : List Char) :
    unquoteBytes (c :: s) = String.utf8EncodeChar c ++ unquoteBytes s := by
  rw [unquoteBytes]
  rintro a b t rfl
  exact absurd rfl h

theorem unquoteBytes_quoteByte (hsafe : '%' ∉ safe) (b : UInt8) (s : List Char) :
    unquoteBytes (quoteByte safe b ++ s) = b :: unquoteBytes s := by
  unfold quoteByte
  split_ifs with hplain
  · obtain ⟨hlt, hmark⟩ := hplain
    have hne : Char.ofNat b.toNat ≠ '%' := by
      intro heq
      rw [heq] at hmark
      rcases hmark with hmark | hmark
      · exact absurd hmark (by decide)
      · exact hsafe hmark
    rw [List.singleton_append, unquoteBytes_of_ne hne, encodeChar_ascii hlt, UInt8.ofNat_toNat, List.singleton_append]
  · have hlt : b.toNat < 256 := b.toNat_lt
    have hvalue : 16 * (b.toNat / 16) + b.toNat % 16 = b.toNat := Nat.div_add_mod ..
    rw [List.cons_append, List.cons_append, List.cons_append, List.nil_append, unquoteBytes,
      hexValue_hexDigit (by omega), hexValue_hexDigit (by omega)]
    dsimp only
    rw [hvalue, UInt8.ofNat_toNat]

/-- **A text is read as it was.** -/
theorem unquote_quote (hsafe : '%' ∉ safe) : unquote (quote safe s) = s := by
  have hbytes : ∀ bs : List UInt8, unquoteBytes (bs.flatMap (quoteByte safe)) = bs := by
    intro bs
    induction bs with
    | nil => rfl
    | cons b bs ih => rw [List.flatMap_cons, unquoteBytes_quoteByte hsafe, ih]
  rw [unquote, quote, hbytes, decode_encode]

theorem not_mem_quote {c : Char} (hc : ¬ Unreserved c) (hsafe : c ∉ safe) (hpercent : c ≠ '%') : c ∉ quote safe s := by
  intro h
  obtain ⟨b, -, hb⟩ := List.mem_flatMap.mp h
  unfold quoteByte at hb
  split_ifs at hb with hplain
  · rw [List.mem_singleton] at hb
    rw [← hb] at hplain
    rcases hplain.2 with h | h
    · exact hc h
    · exact hsafe h
  · have hdigit : ∀ n < 16, Unreserved (hexDigit n) := by decide
    have hlt : b.toNat < 256 := b.toNat_lt
    simp only [List.mem_cons, List.not_mem_nil, or_false] at hb
    rcases hb with rfl | rfl | rfl
    · exact hpercent rfl
    · exact hc (hdigit _ (by omega))
    · exact hc (hdigit _ (by omega))

theorem unquotePlus_of_not_mem (h : '+' ∉ s) : unquotePlus s = unquote s := by
  have hmap : s.map (fun c => if c = '+' then ' ' else c) = s := by
    conv_rhs => rw [← List.map_id' s]
    refine List.map_congr_left fun c hc => if_neg ?_
    rintro rfl
    exact h hc
  rw [unquotePlus, hmap]

theorem unquote_of_not_mem (h : '%' ∉ s) : unquote s = s := by
  have hbytes : unquoteBytes s = encode s := by
    induction s with
    | nil => rfl
    | cons c s ih =>
      rw [List.mem_cons, not_or] at h
      rw [unquoteBytes_of_ne (Ne.symm h.1), ih h.2, encode_cons]
  rw [unquote, hbytes, decode_encode]

/-- **The fields of a query** are read as they were. -/
theorem parseQuery_fields {fields : List (List Char × List Char)} (hne : fields ≠ [])
    (hnames : ∀ f ∈ fields, ∀ c ∈ f.1, c.isAlphanum) (hvalues : ∀ f ∈ fields, '&' ∉ f.2 ∧ '+' ∉ f.2) :
    parseQuery (['&'].intercalate (fields.map fun f => f.1 ++ '=' :: f.2)) =
      fields.map fun f => (f.1, unquote f.2) := by
  have hplain : ∀ c : Char, c.isAlphanum → c ≠ '&' ∧ c ≠ '=' ∧ c ≠ '%' ∧ c ≠ '+' := by
    intro c hc
    refine ⟨?_, ?_, ?_, ?_⟩ <;> rintro rfl <;> exact absurd hc (by decide)
  have hsplit : ∀ l ∈ fields.map (fun f => f.1 ++ '=' :: f.2), '&' ∉ l := by
    intro l hl hmem
    obtain ⟨f, hf, rfl⟩ := List.mem_map.mp hl
    rcases List.mem_append.mp hmem with h | h
    · exact (hplain _ (hnames f hf _ h)).1 rfl
    · rcases List.mem_cons.mp h with h | h
      · cases h
      · exact (hvalues f hf).1 h
  have hfilter : (fields.map fun f => f.1 ++ '=' :: f.2).filter (fun f => f ≠ []) =
      fields.map fun f => f.1 ++ '=' :: f.2 := by
    refine List.filter_eq_self.mpr fun l hl => ?_
    obtain ⟨f, -, rfl⟩ := List.mem_map.mp hl
    simp
  rw [parseQuery, List.splitOn_intercalate '&' hsplit (by simpa using hne), hfilter, List.map_map]
  refine List.map_congr_left fun f hf => ?_
  have hname := hnames f hf
  have htake : (f.1 ++ '=' :: f.2).takeWhile (fun c => c ≠ '=') = f.1 := by
    rw [List.takeWhile_append_of_pos fun c hc => decide_eq_true (hplain c (hname c hc)).2.1,
      List.takeWhile_cons_of_neg (by simp), List.append_nil]
  have hdrop : (f.1 ++ '=' :: f.2).dropWhile (fun c => c ≠ '=') = '=' :: f.2 := by
    rw [List.dropWhile_append_of_pos fun c hc => decide_eq_true (hplain c (hname c hc)).2.1,
      List.dropWhile_cons_of_neg (by simp)]
  have hplus : '+' ∉ f.1 := fun h => (hplain _ (hname _ h)).2.2.2 rfl
  rw [Function.comp_apply, field, htake, hdrop, List.drop_one, List.tail_cons, unquotePlus_of_not_mem hplus,
    unquotePlus_of_not_mem (hvalues f hf).2, unquote_of_not_mem fun h => (hplain _ (hname _ h)).2.2.1 rfl]

end Smara.Lib.Percent
