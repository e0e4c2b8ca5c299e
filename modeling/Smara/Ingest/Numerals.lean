import Smara.Ingest.Dates

/-! # Decimal numerals

The text of an amount is read by `Decimal`: a sign, digits with a point, an exponent, an infinity or a text that is no
number. White space around it and underscores do not count, and the digits may be those of any script.

* `Literal`, `literal`: what `Decimal` reads.
* `Aborts`: the literals that `parse_amount_paise` cannot make an integer of.
* `Platform`: what the platform says, with this reading. -/

namespace Smara.Ingest

open Lib.Round

/-- A decimal number, or what stands for none. -/
inductive Literal
  | finite (negative : Bool) (coefficient : ℕ) (exponent : ℤ)
  | infinity (negative : Bool)
  /-- no number; `signals` if each operation on it raises `InvalidOperation` -/
  | nan (signals : Bool)
  deriving DecidableEq

variable (py : Python)

/-! ### Reading -/

def toAscii (c : Char) : Option Char :=
  if c.toNat < 128 then some c else if py.decimal c then some (py.value c).digitChar else none

def asciiText (s : Text) : Option Text := ((strip py.toUnicode s).filter fun c => c ≠ '_').mapM (toAscii py)

def signed : Text → Bool × Text
  | '-' :: s => (true, s)
  | '+' :: s => (false, s)
  | s => (false, s)

def digits (s : Text) : Option ℕ :=
  if s ≠ [] ∧ s.all Char.isDigit then some (Nat.ofDigitChars 10 s 0) else none

/-- The exponent behind its indicator. -/
def exponentPart (s : Text) : Option ℤ :=
  let (negative, s) := signed s
  (digits s).map fun n => if negative then -(n : ℤ) else n

def maxEmax : ℤ := 999999999999999999

def minEtiny : ℤ := -1999999999999999997

def Representable (coefficient : ℕ) (exponent : ℤ) : Prop :=
  minEtiny ≤ exponent ∧ exponent + Nat.log 10 coefficient ≤ maxEmax

instance (coefficient : ℕ) (exponent : ℤ) : Decidable (Representable coefficient exponent) :=
  inferInstanceAs (Decidable (_ ∧ _))

/-- The coefficient and the exponent of a numeral. -/
def numeral (s : Text) : Option (ℕ × ℤ) :=
  match plain (s.takeWhile fun c => c ≠ 'e' ∧ c ≠ 'E'), s.dropWhile fun c => c ≠ 'e' ∧ c ≠ 'E' with
  | none, _ => none
  | some (coefficient, decimals), [] => some (coefficient, -decimals)
  | some (coefficient, decimals), _ :: s =>
    (exponentPart s).bind fun e =>
      if Representable coefficient (e - decimals) then some (coefficient, e - decimals) else none

/-- **`Decimal(s)`**; none if `InvalidOperation` is raised. -/
def literal (s : Text) : Option Literal :=
  (asciiText py s).bind fun s =>
    let (negative, s) := signed s
    let low := s.map Char.toLower
    if low = "inf".toList ∨ low = "infinity".toList then some (.infinity negative)
    else if "nan".toList <+: low ∧ (low.drop 3).all Char.isDigit then some (.nan false)
    else if "snan".toList <+: low ∧ (low.drop 4).all Char.isDigit then some (.nan true)
    else (numeral s).map fun n => .finite negative n.1 n.2

/-! ### The amount -/

/-- **The literals that raise an exception which is not caught**: `ValueError` for no number, `OverflowError` for an
infinity, and `decimal.Overflow`. -/
def Literal.Aborts : Literal → Prop
  | .finite _ coefficient exponent => Overflows coefficient exponent
  | .infinity _ => True
  | .nan signals => ¬ signals

instance : DecidablePred Literal.Aborts
  | .finite _ _ _ => inferInstanceAs (Decidable (Overflows _ _))
  | .infinity _ => instDecidableTrue
  | .nan _ => inferInstanceAs (Decidable (¬ _))

/-- The number of paise; none if `InvalidOperation` is raised. -/
def Literal.paise : Literal → Option ℤ
  | .finite negative coefficient exponent =>
    let paise := halfEven (significant 28 (coefficient * 100) * 10 ^ exponent)
    some (if negative then -paise else paise)
  | .infinity _ => none
  | .nan _ => none

/-- `int((Decimal(s) * 100).to_integral_value())` -/
def readPaise (s : Text) : Option (Option ℤ) :=
  match literal py s with
  | none => some none
  | some l => if l.Aborts then none else some l.paise

/-- **What the tables and the platform say**, with the reading of `Decimal`. -/
structure Platform extends Python where
  reads : ∀ s, otherPaise s = readPaise toPython s

/-- The platform with these tables. -/
def Python.platform : Platform where
  toPython := { py with otherPaise := readPaise py }
  reads _ := rfl

variable {py}

theorem Figure.lt {c : Char} (h : Figure c) : c.toNat < 128 := by
  have := h.toNat
  omega

theorem figure_of_plain {s : Text} {coefficient decimals : ℕ} (h : plain s = some (coefficient, decimals)) :
    ∀ c ∈ s, Figure c := by
  have hsplit : s.takeWhile Char.isDigit ++ s.dropWhile Char.isDigit = s := List.takeWhile_append_dropWhile
  have hwhole : ∀ c ∈ s.takeWhile Char.isDigit, Figure c := fun c hc => Or.inl (List.mem_takeWhile_imp hc)
  have hrest : ∀ c ∈ s.dropWhile Char.isDigit, Figure c := by
    unfold plain at h
    dsimp only at h
    split at h
    · next heq =>
      rw [heq]
      simp
    · next ds heq =>
      split_ifs at h with hds
      rw [heq]
      intro c hc
      rcases List.mem_cons.mp hc with rfl | hc
      · exact Or.inr rfl
      · exact Or.inl (List.all_eq_true.mp hds.1 c hc)
    · cases h
  intro c hc
  rw [← hsplit] at hc
  rcases List.mem_append.mp hc with hc | hc
  · exact hwhole c hc
  · exact hrest c hc

theorem asciiText_figures {s : Text} (h : ∀ c ∈ s, Figure c) : asciiText py s = some s := by
  have hspace : ∀ c ∈ s, py.space c = false := by
    intro c hc
    have hrange := (h c hc).toNat
    rw [py.space_ascii c (h c hc).lt, decide_eq_false_iff_not]
    omega
  have hstrip : strip py.toUnicode s = s := strip_eq_self hspace
  have hfilter : s.filter (fun c => c ≠ '_') = s := by
    refine List.filter_eq_self.mpr fun c hc => decide_eq_true ?_
    rintro rfl
    exact absurd (h _ hc).toNat (by decide)
  rw [asciiText, hstrip, hfilter]
  have hmap : ∀ t : Text, (∀ c ∈ t, Figure c) → t.mapM (toAscii py) = some t := by
    intro t ht
    induction t with
    | nil => rfl
    | cons c t ih =>
      obtain ⟨hc, ht⟩ := List.forall_mem_cons.mp ht
      rw [List.mapM_cons, ih ht, toAscii, if_pos hc.lt]
      rfl
  exact hmap s h

theorem Figure.ne {c x : Char} (h : Figure c) (hx : x.toNat < 46 ∨ 57 < x.toNat) : c ≠ x := by
  have := h.toNat
  rintro rfl
  omega

theorem signed_figures {s : Text} (h : ∀ c ∈ s, Figure c) : signed s = (false, s) := by
  cases s with
  | nil => rfl
  | cons c s =>
    have hc := h c (by simp)
    unfold signed
    split
    · next heq => exact absurd (List.cons.inj heq).1 (hc.ne (by decide))
    · next heq => exact absurd (List.cons.inj heq).1 (hc.ne (by decide))
    · rfl

theorem not_prefix_figures {s : Text} (h : ∀ c ∈ s, Figure c) {x : Char} {word : Text} (hx : 57 < x.toNat) :
    ¬ x :: word <+: s := by
  rintro ⟨t, rfl⟩
  exact (h x (by simp)).ne (Or.inr hx) rfl

theorem literal_plain {s : Text} {coefficient decimals : ℕ} (h : plain s = some (coefficient, decimals)) :
    literal py s = some (.finite false coefficient (-decimals)) := by
  have hfigures := figure_of_plain h
  have hlow : s.map Char.toLower = s := by
    conv_rhs => rw [← List.map_id' s]
    exact List.map_congr_left fun c hc => (hfigures c hc).toLower
  have hinf : ¬ (s = "inf".toList ∨ s = "infinity".toList) := by
    rintro (rfl | rfl)
    all_goals exact absurd (hfigures 'i' (by decide)).toNat (by decide)
  have hnan : ¬ "nan".toList <+: s := not_prefix_figures hfigures (by decide)
  have hsnan : ¬ "snan".toList <+: s := not_prefix_figures hfigures (by decide)
  have hmantissa : ∀ c ∈ s, decide (c ≠ 'e' ∧ c ≠ 'E') = true := fun c hc =>
    decide_eq_true ⟨(hfigures c hc).ne (by decide), (hfigures c hc).ne (by decide)⟩
  have hnumeral : numeral s = some (coefficient, -(decimals : ℤ)) := by
    unfold numeral
    rw [List.takeWhile_eq_self_iff.mpr hmantissa, List.dropWhile_eq_nil_iff.mpr hmantissa, h]
  unfold literal
  rw [asciiText_figures hfigures, Option.bind_some, signed_figures hfigures]
  simp only [hlow, if_neg hinf, hnan, hsnan, false_and, if_false, hnumeral, Option.map_some]

theorem Platform.decimalPaise (py : Platform) (s : Text) : decimalPaise py.toPython s = readPaise py.toPython s := by
  unfold Ingest.decimalPaise
  cases h : plain s with
  | none => exact py.reads s
  | some x =>
    obtain ⟨coefficient, decimals⟩ := x
    unfold readPaise
    rw [literal_plain h]
    dsimp only [Literal.Aborts, Literal.paise]
    rw [zpow_neg, zpow_natCast, ← div_eq_mul_inv]
    rfl

end Smara.Ingest
