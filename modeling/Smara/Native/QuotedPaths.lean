import Smara.Lib.Utf8
import Smara.Lib.PyText

/-! # Quoted paths

The header of a patch names its files. A name with characters that git quotes is written in double quotes, with the
bytes of these characters as octal numbers.

* `quotePath`: the token of a path.
* `readToken`: git's reading of a token at the beginning of a text.
* `readToken_quotePath`: the bytes of the path are read, up to the end of the token.
* `quoted_paths`: so no two names have one token. -/

namespace Smara.Native.QuotedPaths

open Lib.Letters Lib.Utf8

abbrev Text := List Char

variable {value rest : Text} {b : UInt8} {bs : List UInt8} {c : Char}

/-! ### Writing -/

/-- `{34, 92}` -/
def Quoted (b : UInt8) : Prop := b.toNat = 34 ∨ b.toNat = 92

instance : DecidablePred Quoted := fun b => inferInstanceAs (Decidable (b.toNat = 34 ∨ b.toNat = 92))

/-- The digit of a number below eight. -/
def digit (n : ℕ) : Char := Char.ofNat (48 + n)

/-- `f"\\{ch:03o}"` -/
def octal (b : UInt8) : Text := ['\\', digit (b.toNat / 64), digit (b.toNat / 8 % 8), digit (b.toNat % 8)]

/-- A byte in quotes: itself, or an escape of three digits. -/
def quoteByte (b : UInt8) : Text :=
  if 32 ≤ b.toNat ∧ b.toNat < 127 ∧ ¬ Quoted b then [Char.ofNat b.toNat] else octal b

def quotePath (value : Text) : Text :=
  if ∀ b ∈ encode value, 33 ≤ b.toNat ∧ b.toNat < 127 ∧ ¬ Quoted b then value
  else '"' :: ((encode value).flatMap quoteByte ++ ['"'])

/-! ### Reading -/

/-- The value of an octal digit. -/
def value? (c : Char) : Option ℕ := if 48 ≤ c.toNat ∧ c.toNat < 56 then some (c.toNat - 48) else none

/-- The letters that stand for a byte behind a backslash. -/
def letters : List (Char × ℕ) :=
  [('a', 7), ('b', 8), ('t', 9), ('n', 10), ('v', 11), ('f', 12), ('r', 13), ('"', 34), ('\\', 92)]

/-- A byte from the three digits of its octal number, the first of which is at most 3. -/
def readOctal (c d e : Char) : Option UInt8 :=
  match value? c, value? d, value? e with
  | some i, some j, some k => if i < 4 then some (UInt8.ofNat (64 * i + 8 * j + k)) else none
  | _, _, _ => none

/-- The bytes up to the closing quote, and what stands behind it. -/
def readQuoted : Text → Option (List UInt8 × Text)
  | [] => none
  | '"' :: cs => some ([], cs)
  | '\\' :: c :: cs =>
    match letters.lookup c with
    | some n => (readQuoted cs).map fun r => (UInt8.ofNat n :: r.1, r.2)
    | none =>
      match cs with
      | d :: e :: cs =>
        match readOctal c d e with
        | some b => (readQuoted cs).map fun r => (b :: r.1, r.2)
        | none => none
      | _ => none
  | c :: cs => (readQuoted cs).map fun r => (String.utf8EncodeChar c ++ r.1, r.2)

/-- What ends a token that is not quoted. -/
def isEnd (c : Char) : Bool := c = ' ' || c = '\t' || c = '\n'

/-- **Git's reading of a token**: in quotes, or up to a space, a tab or the end of the line. -/
def readToken : Text → Option (List UInt8 × Text)
  | '"' :: cs => readQuoted cs
  | cs => some (encode (cs.takeWhile fun c => !isEnd c), cs.dropWhile fun c => !isEnd c)

/-! ### Escapes -/

theorem toNat_lt (b : UInt8) : b.toNat < 256 := b.toNat_lt_size

theorem value?_digit {n : ℕ} (h : n < 8) : value? (digit n) = some n := by
  have hall : ∀ n < 8, value? (digit n) = some n := by decide
  exact hall n h

theorem readOctal_octal (b : UInt8) :
    readOctal (digit (b.toNat / 64)) (digit (b.toNat / 8 % 8)) (digit (b.toNat % 8)) = some b := by
  have hlt := toNat_lt b
  have hhigh : b.toNat / 64 < 4 := by omega
  have hsum : 64 * (b.toNat / 64) + 8 * (b.toNat / 8 % 8) + b.toNat % 8 = b.toNat := by omega
  unfold readOctal
  rw [value?_digit (by omega), value?_digit (by omega), value?_digit (by omega)]
  simp only
  rw [if_pos hhigh, hsum, UInt8.ofNat_toNat]

theorem lookup_digit {n : ℕ} (h : n < 8) : letters.lookup (digit n) = none := by
  have hall : ∀ n < 8, letters.lookup (digit n) = none := by decide
  exact hall n h

theorem readQuoted_octal (b : UInt8) (cs : Text) :
    readQuoted (octal b ++ cs) = (readQuoted cs).map fun r => (b :: r.1, r.2) := by
  have hlt := toNat_lt b
  have hlookup : letters.lookup (digit (b.toNat / 64)) = none := lookup_digit (by omega)
  show readQuoted ('\\' :: digit (b.toNat / 64) :: digit (b.toNat / 8 % 8) :: digit (b.toNat % 8) :: cs) = _
  rw [readQuoted, hlookup]
  simp only
  rw [readOctal_octal]

theorem readQuoted_char (h : c ≠ '"') (h' : c ≠ '\\') (cs : Text) :
    readQuoted (c :: cs) = (readQuoted cs).map fun r => (String.utf8EncodeChar c ++ r.1, r.2) := by
  rw [readQuoted]
  · exact fun h₁ => h h₁
  · exact fun _ _ h₁ _ => h' h₁

/-- **A byte in quotes** is read back. -/
theorem readQuoted_quoteByte (b : UInt8) (cs : Text) :
    readQuoted (quoteByte b ++ cs) = (readQuoted cs).map fun r => (b :: r.1, r.2) := by
  unfold quoteByte
  split_ifs with h
  · obtain ⟨-, hlt, hquoted⟩ := h
    have hnat : (Char.ofNat b.toNat).toNat = b.toNat := toNat_char_ofNat (Or.inl (by omega))
    have hquote : Char.ofNat b.toNat ≠ '"' := by
      intro heq
      exact hquoted (Or.inl (by rw [← hnat, heq]; rfl))
    have hslash : Char.ofNat b.toNat ≠ '\\' := by
      intro heq
      exact hquoted (Or.inr (by rw [← hnat, heq]; rfl))
    rw [List.singleton_append, readQuoted_char hquote hslash, encodeChar_ascii (by omega), UInt8.ofNat_toNat]
    rfl
  · exact readQuoted_octal b cs

theorem readQuoted_bytes (bs : List UInt8) (rest : Text) :
    readQuoted (bs.flatMap quoteByte ++ '"' :: rest) = some (bs, rest) := by
  induction bs with
  | nil => rfl
  | cons b bs ih =>
    rw [List.flatMap_cons, List.append_assoc, readQuoted_quoteByte, ih]
    rfl

/-! ### Tokens -/

/-- The text ends, or goes on behind the token. -/
def Ends (rest : Text) : Prop := ∀ c ∈ rest.head?, isEnd c

theorem encodeChar_mem {n : ℕ} (hn : n < 128) (h : Char.ofNat n ∈ value) : UInt8.ofNat n ∈ encode value := by
  unfold encode
  refine List.mem_flatMap.mpr ⟨_, h, ?_⟩
  rw [encodeChar_ascii hn]
  exact List.mem_singleton_self _

theorem not_end_of_plain (h : ∀ b ∈ encode value, 33 ≤ b.toNat ∧ b.toNat < 127 ∧ ¬ Quoted b) (hc : c ∈ value) :
    isEnd c = false := by
  have hmark : ∀ n < 33, Char.ofNat n ≠ c := by
    rintro n hn rfl
    have hlow := (h _ (encodeChar_mem (by omega) hc)).1
    rw [toNat_ofNat (by omega)] at hlow
    omega
  have hspace : c ≠ ' ' := (hmark 32 (by omega)).symm
  have htab : c ≠ '\t' := (hmark 9 (by omega)).symm
  have hline : c ≠ '\n' := (hmark 10 (by omega)).symm
  simp [isEnd, hspace, htab, hline]

theorem readToken_plain (h : ∀ b ∈ encode value, 33 ≤ b.toNat ∧ b.toNat < 127 ∧ ¬ Quoted b) (hrest : Ends rest) :
    readToken (value ++ rest) = some (encode value, rest) := by
  have hwhole : ∀ c ∈ value, (!isEnd c) = true := fun c hc => by rw [not_end_of_plain h hc]; rfl
  have hstop : rest.takeWhile (fun c => !isEnd c) = [] ∧ rest.dropWhile (fun c => !isEnd c) = rest := by
    cases rest with
    | nil => exact ⟨rfl, rfl⟩
    | cons c cs =>
      have hend : (!isEnd c) = false := by rw [hrest c rfl]; rfl
      exact ⟨List.takeWhile_cons_of_neg (by simp [hend]), List.dropWhile_cons_of_neg (by simp [hend])⟩
  have hquote : ∀ cs, value ++ rest ≠ '"' :: cs := by
    intro cs heq
    cases value with
    | nil =>
      have hend := hrest '"' (by rw [show rest = '"' :: cs from heq]; rfl)
      exact absurd hend (by decide)
    | cons c v =>
      obtain ⟨rfl, -⟩ := List.cons.inj heq
      have hmem := encodeChar_mem (n := 34) (by omega) (List.mem_cons_self (a := '"') (l := v))
      exact (h _ hmem).2.2 (Or.inl rfl)
  rw [readToken]
  · rw [List.takeWhile_append_of_pos hwhole, List.dropWhile_append_of_pos hwhole, hstop.1, hstop.2, List.append_nil]
  · exact hquote

/-- **A path is read back from its token.** -/
theorem readToken_quotePath (value : Text) (hrest : Ends rest) :
    readToken (quotePath value ++ rest) = some (encode value, rest) := by
  unfold quotePath
  split_ifs with h
  · exact readToken_plain h hrest
  · rw [List.cons_append, List.append_assoc, List.singleton_append]
    exact readQuoted_bytes _ _

/-- The name of a file as the patch has it: `"a/" + name`. -/
def old (name : Text) : Text := 'a' :: '/' :: name

/-- **Quoted paths**: the token of a file is read back as the bytes of `a/` and its name, whatever follows the token
in the line, and two names with the same token are the same. -/
theorem quoted_paths (name : Text) :
    (∀ rest, Ends rest → readToken (quotePath (old name) ++ rest) = some (encode (old name), rest)) ∧
      ∀ name', quotePath (old name) = quotePath (old name') → name = name' := by
  refine ⟨fun rest hrest => readToken_quotePath (old name) hrest, fun name' heq => ?_⟩
  have hread : readToken (quotePath (old name) ++ []) = some (encode (old name), []) :=
    readToken_quotePath (old name) (by simp [Ends])
  rw [heq, readToken_quotePath (old name') (by simp [Ends])] at hread
  have hbytes : encode (old name') = encode (old name) := congrArg Prod.fst (Option.some.inj hread)
  have hold : old name' = old name := by rw [← decode_encode (old name'), hbytes, decode_encode]
  exact (List.cons.inj (List.cons.inj hold).2).2.symm

/-- The token of a name with a space, before the second token of its line. -/
theorem quoted_paths_space : readToken (quotePath (old "b c".toList) ++ " b/x\n".toList) =
    some (encode (old "b c".toList), " b/x\n".toList) :=
  (quoted_paths "b c".toList).1 _ (by simp [Ends, isEnd])

end Smara.Native.QuotedPaths
