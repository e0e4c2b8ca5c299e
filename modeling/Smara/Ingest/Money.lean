import Mathlib
import Smara.Ingest.Phones
import Smara.Lib.Double

/-! # Amounts of a sheet

An amount is written as a double with two decimals, and read as a decimal number of 28 significant digits, after the
signs of currency and of debit and credit have been removed.

* `Python`: what the tables of Unicode and the platform say.
* `formatAmount`, `parseAmountPaise`: an amount as it is written and as it is read.
* `Exact`: the amounts that are written to the paisa; `exact_of_le`: all below seventy trillion rupees are.
* `parseAmountPaise_formatAmount`: such an amount is read as it was. -/

namespace Smara.Ingest

open Lib.Round

/-- What the tables of Unicode and the platform say. -/
structure Python extends Unicode where
  /-- the value of a decimal digit -/
  value : Char → ℕ
  /-- the letter, regardless of its case -/
  same : Char → Char → Bool
  /-- `\w` of a regular expression -/
  word : Char → Bool
  lower : Text → Text
  upper : Text → Text
  /-- `strftime` writes the year with four digits at least. -/
  padsYear : Bool
  /-- `int((Decimal(s) * 100).to_integral_value())` of a text that is not a plain numeral: an exception, or nothing if
  the text is no number -/
  otherPaise : Text → Option (Option ℤ)
  value_ascii : ∀ c, c.isDigit → value c = c.toNat - 48
  same_ascii : ∀ c x, c.toNat < 128 → same c x = (c.toLower == x)
  word_ascii : ∀ c, c.toNat < 128 → word c = (c.isAlphanum || c == '_')
  lower_ascii : ∀ t : Text, (∀ c ∈ t, c.toNat < 128) → lower t = t.map Char.toLower
  upper_ascii : ∀ t : Text, (∀ c ∈ t, c.toNat < 128) → upper t = t.map Char.toUpper
  decimal_of_space : ∀ c, space c → decimal c = false

variable (py : Python)

/-! ### Reading -/

/-- How many characters the regular expression of `parse_amount_paise` matches here, after the character `prev`. -/
def junk (prev : Option Char) : Text → ℕ
  | [] => 0
  | c :: s =>
    if c = '₹' ∨ c = ',' ∨ py.space c then 1
    else if py.same c 'r' ∧ s.head?.any (py.same · 's') then if s.tail.head? = some '.' then 3 else 2
    else if py.same c 'i' ∧ s.head?.any (py.same · 'n') ∧ s.tail.head?.any (py.same · 'r') then 3
    else if (py.same c 'd' ∨ py.same c 'c') ∧ s.head?.any (py.same · 'r') ∧ ¬ prev.any py.word ∧
        ¬ s.tail.head?.any py.word then 2
    else if c = '/' ∧ s.head? = some '-' then 2
    else if c = '-' ∧ (s = [] ∨ s = ['\n']) then 1
    else 0

/-- The text without its matches; `skip` characters of the current match are left. -/
def clean (skip : ℕ) (prev : Option Char) : Text → Text
  | [] => []
  | c :: s =>
    if 0 < skip then clean (skip - 1) (some c) s
    else if 0 < junk py prev (c :: s) then clean (junk py prev (c :: s) - 1) (some c) s
    else c :: clean 0 (some c) s

/-- The digits of a plain numeral, as a number, and how many of them are decimals. -/
def plain (s : Text) : Option (ℕ × ℕ) :=
  let whole := s.takeWhile Char.isDigit
  match s.dropWhile Char.isDigit with
  | [] => if whole ≠ [] then some (Nat.ofDigitChars 10 whole 0, 0) else none
  | '.' :: decimals =>
    if decimals.all Char.isDigit ∧ (whole ≠ [] ∨ decimals ≠ []) then
      some (Nat.ofDigitChars 10 (whole ++ decimals) 0, decimals.length)
    else none
  | _ => none

/-- The product with a hundred is too large for the context, which raises `decimal.Overflow`. -/
def Overflows (coefficient : ℕ) (exponent : ℤ) : Prop :=
  coefficient ≠ 0 ∧ 999999 < Nat.log 10 (significant 28 (coefficient * 100)).toNat + exponent

instance (coefficient : ℕ) (exponent : ℤ) : Decidable (Overflows coefficient exponent) :=
  inferInstanceAs (Decidable (_ ∧ _))

/-- `int((Decimal(s) * 100).to_integral_value())`; none if an exception is raised that is not caught -/
def decimalPaise (s : Text) : Option (Option ℤ) :=
  match plain s with
  | some (coefficient, decimals) =>
    if Overflows coefficient (-decimals) then none
    else some (some (halfEven (significant 28 (coefficient * 100) / 10 ^ decimals)))
  | none => py.otherPaise s

/-- `parse_amount_paise` of the text of a cell -/
def parseAmountPaise (v : Text) : Option (Option ℕ) :=
  if v = [] then some none
  else (decimalPaise py (clean py 0 none v)).map fun paise => (paise.filter (0 < ·)).map Int.toNat

/-! ### Writing -/

def fixed (n : ℕ) : Text := Nat.toDigits 10 (n / 100) ++ '.' :: [(n / 10 % 10).digitChar, (n % 10).digitChar]

/-- `f"{float(amount):.2f}"` of an amount in rupees -/
def formatAmount (paise : ℕ) : Text :=
  let x := double (paise / 100)
  if x < 2 ^ 1024 then fixed (halfEven (100 * x)).toNat else "inf".toList

/-- The double of the amount is finite, and nearest to this number of paise; and it has no more than 28 digits. -/
structure Exact (paise : ℕ) : Prop where
  finite : double (paise / 100) < 2 ^ 1024
  near : Near (100 * double (paise / 100)) paise
  significant : Significant 28 paise

/-! ### What is read of what was written -/

variable {py}

def Figure (c : Char) : Prop := c.isDigit ∨ c = '.'

theorem Figure.toNat {c : Char} (h : Figure c) : 46 ≤ c.toNat ∧ c.toNat ≤ 57 ∧ c ≠ '/' := by
  rcases h with hdigit | rfl
  · have := range_of_isDigit hdigit
    refine ⟨by omega, by omega, ?_⟩
    rintro rfl
    exact absurd hdigit (by decide)
  · decide

theorem Figure.toLower {c : Char} (h : Figure c) : c.toLower = c := by
  have := h.toNat
  have hupper : ¬ c.isUpper := by
    simp only [Char.isUpper, decide_eq_true_eq, ge_iff_le, UInt32.le_iff_toNat_le, not_and]
    intro hle
    have hle : 65 ≤ c.toNat := hle
    omega
  unfold Char.toLower
  rw [dif_neg]
  exact fun hrange => hupper (by simpa [Char.isUpper, UInt32.le_iff_toNat_le] using hrange)

theorem Figure.not_same {c x : Char} (h : Figure c) (hx : ¬ Figure x) : py.same c x = false := by
  have := h.toNat
  rw [py.same_ascii c x (by omega), h.toLower, beq_eq_false_iff_ne]
  rintro rfl
  exact hx h

theorem junk_figure {prev : Option Char} {c : Char} {s : Text} (h : Figure c) : junk py prev (c :: s) = 0 := by
  have hrange := h.toNat
  have hspace : py.space c = false := by
    rw [py.space_ascii c (by omega), decide_eq_false_iff_not]
    omega
  have hne : ∀ x : Char, x.toNat < 46 ∨ 57 < x.toNat → c ≠ x := by
    rintro x hx rfl
    omega
  have hletter : ∀ x : Char, 57 < x.toNat → py.same c x = false := by
    intro x hx
    refine h.not_same fun hfigure => ?_
    have := hfigure.toNat
    omega
  simp [junk, hspace, hletter 'r' (by decide), hletter 'i' (by decide), hletter 'd' (by decide),
    hletter 'c' (by decide), hne '₹' (by decide), hne ',' (by decide), hne '-' (by decide), hrange.2.2]

theorem clean_figures {prev : Option Char} {s : Text} (h : ∀ c ∈ s, Figure c) : clean py 0 prev s = s := by
  induction s generalizing prev with
  | nil => rfl
  | cons c s ih =>
    obtain ⟨hc, hs⟩ := List.forall_mem_cons.mp h
    rw [clean, if_neg (Nat.lt_irrefl 0), junk_figure hc, if_neg (Nat.lt_irrefl 0), ih hs]

/-! ### The numeral of an amount -/

theorem isDigit_digitChar {d : ℕ} (h : d < 10) : d.digitChar.isDigit := by
  have hall : ∀ d < 10, d.digitChar.isDigit := by decide
  exact hall d h

theorem isDigit_toDigits {n : ℕ} : ∀ c ∈ Nat.toDigits 10 n, c.isDigit := fun _ hc =>
  Nat.isDigit_of_mem_toDigits (by decide) (by decide) hc

theorem figure_fixed (n : ℕ) : ∀ c ∈ fixed n, Figure c := by
  intro c hc
  simp only [fixed, List.mem_append, List.mem_cons, List.not_mem_nil, or_false] at hc
  rcases hc with hc | rfl | rfl | rfl
  · exact Or.inl (isDigit_toDigits c hc)
  · exact Or.inr rfl
  · exact Or.inl (isDigit_digitChar (Nat.mod_lt _ (by decide)))
  · exact Or.inl (isDigit_digitChar (Nat.mod_lt _ (by decide)))

theorem plain_fixed (n : ℕ) : plain (fixed n) = some (n, 2) := by
  have hwhole := isDigit_toDigits (n := n / 100)
  have htens := isDigit_digitChar (Nat.mod_lt (n / 10) (by decide : 10 > 0))
  have hones := isDigit_digitChar (Nat.mod_lt n (by decide : 10 > 0))
  have htake : (fixed n).takeWhile Char.isDigit = Nat.toDigits 10 (n / 100) := by
    rw [fixed, List.takeWhile_append_of_pos hwhole, List.takeWhile_cons_of_neg (by decide), List.append_nil]
  have hdrop : (fixed n).dropWhile Char.isDigit = '.' :: [(n / 10 % 10).digitChar, (n % 10).digitChar] := by
    rw [fixed, List.dropWhile_append_of_pos hwhole, List.dropWhile_cons_of_neg (by decide)]
  have hall : [(n / 10 % 10).digitChar, (n % 10).digitChar].all Char.isDigit := by simp [htens, hones]
  have hvalue : Nat.ofDigitChars 10 (Nat.toDigits 10 (n / 100) ++ [(n / 10 % 10).digitChar, (n % 10).digitChar]) 0 = n := by
    rw [Nat.ofDigitChars_append, Nat.ofDigitChars_ten_toDigits,
      Nat.ofDigitChars_cons_digitChar_of_lt_ten (Nat.mod_lt _ (by decide)),
      Nat.ofDigitChars_cons_digitChar_of_lt_ten (Nat.mod_lt _ (by decide)), Nat.ofDigitChars_nil]
    omega
  unfold plain
  rw [htake, hdrop]
  simp only [hall, hvalue, true_and]
  rw [if_pos (Or.inl Nat.toDigits_ne_nil)]
  rfl

theorem not_overflows {n decimals : ℕ} (h : Significant 28 n) (hlt : n < 10 ^ 1030) : ¬ Overflows n (-decimals) := by
  rintro ⟨hne, hlog⟩
  have hless : Nat.log 10 (n * 100) < 1032 := by
    refine (Nat.log_lt_iff_lt_pow (by decide) (by omega)).mpr ?_
    calc n * 100 < 10 ^ 1030 * 10 ^ 2 := by omega
      _ = 10 ^ 1032 := (pow_add ..).symm
  rw [significant_eq h.mul_hundred, Int.toNat_natCast] at hlog
  omega

theorem decimalPaise_fixed {n : ℕ} (h : Significant 28 n) (hlt : n < 10 ^ 1030) :
    decimalPaise py (fixed n) = some (some (n : ℤ)) := by
  have hsignificant := significant_eq h.mul_hundred
  unfold decimalPaise
  rw [plain_fixed]
  dsimp only
  rw [if_neg (not_overflows h hlt)]
  have hquotient : (significant 28 (n * 100) : ℚ) / 10 ^ 2 = (n : ℤ) := by
    rw [hsignificant]
    push_cast
    ring
  simp only [hquotient, halfEven_intCast]

theorem formatAmount_eq {paise : ℕ} (h : Exact paise) : formatAmount paise = fixed paise := by
  have hround := halfEven_eq_of_near h.near
  unfold formatAmount
  simp only [hround]
  rw [if_pos h.finite, Int.toNat_natCast]

theorem Exact.lt {paise : ℕ} (h : Exact paise) : paise < 10 ^ 1030 := by
  have hfinite : double (paise / 100) < 10 ^ 1024 :=
    h.finite.trans_le (pow_le_pow_left₀ (by norm_num) (by norm_num) 1024)
  have hnear : |100 * double (paise / 100) - (paise : ℤ)| ≤ 1 / 2 := by
    rcases h.near with hlt | ⟨heq, -⟩
    · exact hlt.le
    · exact heq.le
  have hpow : (10 : ℚ) ^ 1030 = 10 ^ 1024 * 1000000 := by
    rw [show 1030 = 1024 + 6 from rfl, pow_add]
    norm_num
  have hone : (1 : ℚ) ≤ 10 ^ 1024 := one_le_pow₀ (by norm_num)
  have hcast : (paise : ℚ) < 10 ^ 1030 := by
    have := (abs_le.mp hnear).1
    push_cast at this
    rw [hpow]
    generalize (10 : ℚ) ^ 1024 = bound at hfinite hone
    linarith
  exact_mod_cast hcast

/-- **Amounts.** An amount that is written to the paisa is read as it was. -/
theorem parseAmountPaise_formatAmount (py : Python) {paise : ℕ} (hpos : 0 < paise) (h : Exact paise) :
    parseAmountPaise py (formatAmount paise) = some (some paise) := by
  have hne : fixed paise ≠ [] := by simp [fixed]
  unfold parseAmountPaise
  rw [formatAmount_eq h, if_neg hne, clean_figures (figure_fixed paise), decimalPaise_fixed h.significant h.lt]
  simp [hpos]

theorem exact_of_le {paise : ℕ} (hpos : 0 < paise) (h : paise < 100 * 2 ^ 46) : Exact paise := by
  have hq : (0 : ℚ) < paise / 100 := by positivity
  have hlt : (paise / 100 : ℚ) < 2 ^ (46 : ℤ) := by
    have hcast : (paise : ℚ) < 100 * 2 ^ 46 := by exact_mod_cast h
    have hpow : (2 : ℚ) ^ (46 : ℤ) = 2 ^ 46 := rfl
    rw [hpow, div_lt_iff₀ (by norm_num)]
    linarith
  have hround := abs_double_sub_le_of_lt hq hlt (by norm_num)
  have hulp : (2 : ℚ) ^ ((46 : ℤ) - 53) / 2 = 1 / 256 := by norm_num
  rw [hulp] at hround
  obtain ⟨hlo, hhi⟩ := abs_le.mp hround
  refine ⟨?_, ?_, ?_⟩
  · calc double (paise / 100) ≤ paise / 100 + 1 / 256 := by linarith
      _ < 2 ^ (46 : ℤ) + 1 := by linarith
      _ < 2 ^ (47 : ℕ) := by norm_num
      _ ≤ 2 ^ 1024 := pow_le_pow_right₀ (by norm_num) (by norm_num)
  · left
    push_cast
    rw [abs_lt]
    constructor
    · linarith
    · linarith
  · exact significant_of_lt (h.trans (by norm_num)) (by omega)

end Smara.Ingest
