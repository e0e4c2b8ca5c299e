import Smara.Ingest.Numerals
import Smara.Ingest.Rows
import Smara.Lib.Percent

/-! # Payment links

A reminder carries an address of `/pay`, which checks its fields and redirects to the UPI app.

* `storedUpi`: the UPI id that the sign-up stores.
* `payUrl`, `upiLink`: the address of the reminder and that of the app.
* `pay`: what `/pay` redirects to.
* `pay_payUrl_iff`: **when a link works**. The sign-up takes three letters that are no letters of ASCII for such ones,
  a name or a reference may have more than eighty characters, and an amount more than nine digits; `/pay` refuses the
  link then. -/

namespace Smara.Server.PayLinks

open Lib.Lawful Lib.Letters Lib.Percent Lib.Round Ingest

/-! ### The patterns -/

/-- The text up to where `$` matches: a line feed at its end does not count. -/
def line (t : Text) : Text := if t.getLast? = some '\n' then t.dropLast else t

/-- `[…]{lo,hi}` -/
def Chars (p : Char → Prop) (lo hi : ℕ) (t : Text) : Prop := lo ≤ t.length ∧ t.length ≤ hi ∧ ∀ c ∈ t, p c

/-- `^…@…$`, of a name without `@` -/
def Address (name provider : Text → Prop) (t : Text) : Prop :=
  name ((line t).takeWhile (· ≠ '@')) ∧ '@' ∈ line t ∧ provider (((line t).dropWhile (· ≠ '@')).drop 1)

/-- The letters that are no letters of ASCII, and are the same as one regardless of case: `İ`, `ı`, `ſ` and the sign of
the kelvin. -/
def foldings : List Char := ['\u0130', '\u0131', '\u017F', '\u212A']

/-- `[a-z]`, regardless of case -/
def Letter (c : Char) : Prop := c.isAlpha ∨ c ∈ foldings

/-- `UPI.match(t)` -/
def UpiMatches (t : Text) : Prop :=
  Address (Chars (fun c => Letter c ∨ c.isDigit ∨ c ∈ ['.', '-', '_']) 2 40)
    (fun s => Chars Letter 1 1 (s.take 1) ∧ Chars (fun c => Letter c ∨ c.isDigit) 1 20 (s.drop 1)) t

def VpaMatches (pa : Text) : Prop :=
  Address (Chars (fun c => c.isAlphanum ∨ c ∈ ['.', '_', '-']) 2 64)
    (Chars (fun c => c.isAlphanum ∨ c ∈ ['.', '-']) 2 32) pa

instance (p : Char → Prop) [DecidablePred p] (lo hi : ℕ) : DecidablePred (Chars p lo hi) := fun _ =>
  inferInstanceAs (Decidable (_ ∧ _ ∧ _))

instance (name provider : Text → Prop) [DecidablePred name] [DecidablePred provider] :
    DecidablePred (Address name provider) := fun _ => inferInstanceAs (Decidable (_ ∧ _ ∧ _))

instance : DecidablePred Letter := fun _ => inferInstanceAs (Decidable (_ ∨ _))

instance : DecidablePred UpiMatches := fun _ => inferInstanceAs (Decidable (Address _ _ _))

instance : DecidablePred VpaMatches := fun _ => inferInstanceAs (Decidable (Address _ _ _))

/-! ### The sign-up -/

def lowerChar (c : Char) : Text :=
  if c = '\u212A' then ['k'] else if c = '\u0130' then ['i', '\u0307'] else if c ∈ foldings then [c] else [c.toLower]

/-- What the tables of Unicode say, also of these letters. -/
structure Casing extends Python where
  lower_foldings : ∀ t : Text, (∀ c ∈ t, c.toNat < 128 ∨ c ∈ foldings) → lower t = t.flatMap lowerChar

variable (py : Python)

def skip : List Text := ["skip", "nahi", "no", "none", "baad mein", "later", "-"].map String.toList

/-- The UPI id that `_continue` stores, if any; none if it asks again. -/
def storedUpi (text : Text) : Option (Option Text) :=
  if py.lower (strip py.toUnicode text) ∈ skip then some none
  else if UpiMatches (strip py.toUnicode text) then some (some (py.lower (strip py.toUnicode text)))
  else none

/-! ### The links -/

def upiLink (vpa payee : Text) (amountPaise : ℕ) (note : Text) : Text :=
  "upi://pay?pa=".toList ++ quote ['@'] vpa ++ "&pn=".toList ++ quote ['/'] payee ++ "&am=".toList ++
    formatAmount amountPaise ++ "&cu=INR&tn=".toList ++ quote ['/'] note

/-- `public_base_url`: an address without a query. -/
structure BaseUrl where
  text : Text
  no_query : '?' ∉ text
  no_fragment : '#' ∉ text

def payUrl (base : BaseUrl) (vpa payee : Text) (amountPaise : ℕ) (note : Text) : Text :=
  base.text.rdropWhile (· = '/') ++ "/pay?pa=".toList ++ quote ['@'] vpa ++ "&pn=".toList ++ quote ['/'] payee ++
    "&am=".toList ++ formatAmount amountPaise ++ "&tn=".toList ++ quote ['/'] note

def queryOf (url : Text) : Text := ((url.dropWhile (· ≠ '?')).drop 1).takeWhile (· ≠ '#')

/-! ### The endpoint -/

/-- `_AMOUNT.match(am)` -/
def AmountMatches (am : Text) : Prop :=
  Chars (fun c => py.decimal c) 1 9 ((line am).takeWhile py.decimal) ∧
    ((line am).dropWhile py.decimal = [] ∨ ((line am).dropWhile py.decimal).take 1 = ['.'] ∧
      Chars (fun c => py.decimal c) 1 2 (((line am).dropWhile py.decimal).drop 1))

instance : DecidablePred (AmountMatches py) := fun _ => inferInstanceAs (Decidable (_ ∧ _))

/-- `float(am)`, of an amount that matches -/
def float (am : Text) : Option ℚ :=
  (asciiText py am).bind fun s => (plain s).map fun n => double (n.1 / 10 ^ n.2)

/-- The fields of the link that `/pay` redirects to. -/
structure Redirect where
  vpa : Text
  payee : Text
  amountPaise : ℕ
  note : Text
  deriving DecidableEq

def Redirect.url (r : Redirect) : Text := upiLink r.vpa r.payee r.amountPaise r.note

def value (query : Text) (name : String) : Option Text := (parseQuery query).reverse.lookup name.toList

/-- **`pay`**; none if the link is refused. -/
def pay (query : Text) : Option Redirect :=
  (value query "pa").bind fun pa => (value query "am").bind fun am =>
    let pn := (value query "pn").getD []
    let tn := (value query "tn").getD []
    if VpaMatches pa ∧ AmountMatches py am ∧ pn.length ≤ 80 ∧ tn.length ≤ 80 then
      (float py am).map fun x => ⟨pa, pn, (halfEven (double (x * 100))).toNat, tn⟩
    else none

variable {py}

/-! ### The query of a link -/

theorem not_mem_formatAmount {c : Char} (paise : ℕ) (hfigure : ¬ Figure c) (hinf : c ∉ "inf".toList) :
    c ∉ formatAmount paise := by
  unfold formatAmount
  dsimp only
  split_ifs
  · exact fun h => hfigure (figure_fixed _ c h)
  · exact hinf

theorem mark_facts {c : Char} (h : c ∈ ['&', '+', '?', '#']) (safe s : List Char) (hsafe : safe = ['@'] ∨ safe = ['/']) :
    c ∉ quote safe s := by
  have hall : ∀ c ∈ ['&', '+', '?', '#'], ¬ Unreserved c ∧ c ∉ ['@'] ∧ c ∉ ['/'] ∧ c ≠ '%' := by decide
  obtain ⟨hplain, hat, hslash, hpercent⟩ := hall c h
  rcases hsafe with rfl | rfl
  · exact not_mem_quote hplain hat hpercent
  · exact not_mem_quote hplain hslash hpercent

theorem parseQuery_payUrl (base : BaseUrl) (vpa payee : Text) (paise : ℕ) (note : Text) :
    parseQuery (queryOf (payUrl base vpa payee paise note)) =
      [("pa".toList, vpa), ("pn".toList, payee), ("am".toList, formatAmount paise), ("tn".toList, note)] := by
  let fields : List (Text × Text) := [("pa".toList, quote ['@'] vpa), ("pn".toList, quote ['/'] payee),
    ("am".toList, formatAmount paise), ("tn".toList, quote ['/'] note)]
  have hmarks : ∀ c ∈ ['&', '+', '?', '#'], c ∉ formatAmount paise := by
    have hall : ∀ c ∈ ['&', '+', '?', '#'], ¬ (c.isDigit ∨ c = '.') ∧ c ∉ "inf".toList := by decide
    exact fun c hc => not_mem_formatAmount paise (hall c hc).1 (hall c hc).2
  have hquery : queryOf (payUrl base vpa payee paise note) =
      ['&'].intercalate (fields.map fun f => f.1 ++ '=' :: f.2) := by
    have hurl : payUrl base vpa payee paise note = (base.text.rdropWhile (· = '/') ++ "/pay".toList) ++
        '?' :: ['&'].intercalate (fields.map fun f => f.1 ++ '=' :: f.2) := by
      simp [payUrl, fields, List.intercalate]
    have hbase : ∀ c ∈ base.text.rdropWhile (· = '/') ++ "/pay".toList, decide (c ≠ '?') = true := by
      intro c hc
      refine decide_eq_true ?_
      rintro rfl
      rcases List.mem_append.mp hc with hc | hc
      · exact base.no_query ((List.rdropWhile_prefix _ _).subset hc)
      · exact absurd hc (by decide)
    have hfragment : ∀ c ∈ ['&'].intercalate (fields.map fun f => f.1 ++ '=' :: f.2), decide (c ≠ '#') = true := by
      intro c hc
      refine decide_eq_true ?_
      rintro rfl
      have hvpa := mark_facts (by decide : '#' ∈ ['&', '+', '?', '#']) ['@'] vpa (Or.inl rfl)
      have hpayee := mark_facts (by decide : '#' ∈ ['&', '+', '?', '#']) ['/'] payee (Or.inr rfl)
      have hnote := mark_facts (by decide : '#' ∈ ['&', '+', '?', '#']) ['/'] note (Or.inr rfl)
      have hamount := hmarks '#' (by decide)
      simp [fields, List.intercalate, hvpa, hpayee, hnote, hamount] at hc
    rw [hurl, queryOf, List.dropWhile_append_of_pos hbase, List.dropWhile_cons_of_neg (by simp), List.drop_one,
      List.tail_cons, List.takeWhile_eq_self_iff.mpr hfragment]
  rw [hquery, parseQuery_fields (by simp [fields])]
  · simp only [fields, List.map_cons, List.map_nil, unquote_quote (by decide : '%' ∉ ['@']),
      unquote_quote (by decide : '%' ∉ ['/']),
      unquote_of_not_mem (not_mem_formatAmount paise (by decide : ¬ ('%'.isDigit ∨ '%' = '.')) (by decide))]
  · simp only [fields, List.forall_mem_cons]
    decide
  · have hfield : ∀ c ∈ ['&', '+', '?', '#'], ∀ f ∈ fields, c ∉ f.2 := by
      intro c hc f hf
      simp only [fields, List.mem_cons, List.not_mem_nil, or_false] at hf
      rcases hf with rfl | rfl | rfl | rfl
      · exact mark_facts hc _ _ (Or.inl rfl)
      · exact mark_facts hc _ _ (Or.inr rfl)
      · exact hmarks c hc
      · exact mark_facts hc _ _ (Or.inr rfl)
    exact fun f hf => ⟨hfield '&' (by decide) f hf, hfield '+' (by decide) f hf⟩

/-! ### The amount of a link -/

theorem line_eq_self {t : Text} (h : '\n' ∉ t) : line t = t :=
  if_neg fun hlast => h (List.mem_of_getLast? hlast)

theorem decimal_figure (py : Python) {c : Char} (h : Figure c) : py.decimal c = c.isDigit := py.decimal_ascii c h.lt

theorem split_fixed (py : Python) (n : ℕ) :
    (line (fixed n)).takeWhile py.decimal = Nat.toDigits 10 (n / 100) ∧
      (line (fixed n)).dropWhile py.decimal = '.' :: [(n / 10 % 10).digitChar, (n % 10).digitChar] := by
  have hline : line (fixed n) = fixed n := line_eq_self fun h => absurd (figure_fixed n _ h).toNat (by decide)
  have hwhole : ∀ c ∈ Nat.toDigits 10 (n / 100), py.decimal c = true := by
    intro c hc
    rw [decimal_figure py (Or.inl (isDigit_toDigits c hc)), isDigit_toDigits c hc]
  have hpoint : py.decimal '.' ≠ true := by
    rw [decimal_figure py (Or.inr rfl)]
    decide
  rw [hline, fixed, List.takeWhile_append_of_pos hwhole, List.dropWhile_append_of_pos hwhole,
    List.takeWhile_cons_of_neg hpoint, List.dropWhile_cons_of_neg hpoint, List.append_nil]
  exact ⟨rfl, rfl⟩

theorem amountMatches_fixed (py : Python) (n : ℕ) : AmountMatches py (fixed n) ↔ n < 10 ^ 11 := by
  obtain ⟨hwhole, hrest⟩ := split_fixed py n
  have hdigits : (Nat.toDigits 10 (n / 100)).length ≤ 9 ↔ n / 100 < 10 ^ 9 :=
    Nat.length_toDigits_le_iff (by decide) (by decide)
  unfold AmountMatches
  rw [hwhole, hrest]
  constructor
  · rintro ⟨⟨-, hle, -⟩, -⟩
    have := hdigits.mp hle
    omega
  · intro hlt
    have hdecimal : ∀ d < 10, py.decimal d.digitChar = true := by
      intro d hd
      rw [decimal_figure py (Or.inl (isDigit_digitChar hd)), isDigit_digitChar hd]
    refine ⟨⟨Nat.length_toDigits_pos, hdigits.mpr (by omega), ?_⟩, Or.inr ⟨rfl, by simp, by simp, ?_⟩⟩
    · intro c hc
      rw [decimal_figure py (Or.inl (isDigit_toDigits c hc)), isDigit_toDigits c hc]
    · simp only [List.drop_one, List.tail_cons, List.forall_mem_cons, List.not_mem_nil, false_implies, implies_true,
        and_true]
      exact ⟨hdecimal _ (Nat.mod_lt _ (by decide)), hdecimal _ (Nat.mod_lt _ (by decide))⟩

theorem amountMatches_formatAmount (py : Python) {paise : ℕ} (hpos : 0 < paise) :
    AmountMatches py (formatAmount paise) ↔ paise < 10 ^ 11 := by
  constructor
  · intro h
    by_contra hge
    have hq : (10 ^ 9 : ℚ) ≤ paise / 100 := by
      have hcast : (10 ^ 11 : ℚ) ≤ paise := by exact_mod_cast Nat.le_of_not_lt hge
      linarith
    have hdouble : (10 ^ 11 - 1 / 4 : ℚ) ≤ 100 * double (paise / 100) := by
      have := (abs_le.mp (abs_double_sub_le_mul (one_le_pow₀ (by norm_num) |>.trans hq))).1
      linarith
    have hround : (10 ^ 11 : ℤ) ≤ halfEven (100 * double (paise / 100)) := by
      have hlo := (abs_le.mp (abs_halfEven_sub_le (100 * double (paise / 100)))).1
      have hcast : (10 ^ 11 - 1 : ℤ) < halfEven (100 * double (paise / 100)) := by
        have : (10 ^ 11 - 1 : ℚ) < (halfEven (100 * double (paise / 100)) : ℚ) := by linarith
        exact_mod_cast this
      omega
    unfold formatAmount at h
    dsimp only at h
    split_ifs at h
    · have := (amountMatches_fixed py _).mp h
      omega
    · obtain ⟨⟨hlen, -⟩, -⟩ := h
      have hletter : ¬ py.decimal 'i' = true := by
        rw [py.decimal_ascii _ (by decide)]
        decide
      have htake : (line "inf".toList).takeWhile py.decimal = [] := List.takeWhile_cons_of_neg hletter
      rw [htake] at hlen
      exact absurd hlen (by decide)
  · intro hlt
    rw [formatAmount_eq (exact_of_le hpos (hlt.trans_le (by norm_num)))]
    exact (amountMatches_fixed py paise).mpr hlt

theorem float_formatAmount (py : Python) {paise : ℕ} (hpos : 0 < paise) (hlt : paise < 10 ^ 11) :
    float py (formatAmount paise) = some (double (paise / 100)) := by
  rw [formatAmount_eq (exact_of_le hpos (hlt.trans_le (by norm_num))), float,
    asciiText_figures (figure_fixed paise), Option.bind_some, plain_fixed]
  norm_num

theorem halfEven_double (paise : ℕ) (hpos : 0 < paise) (hlt : paise < 10 ^ 11) :
    halfEven (double (double (paise / 100) * 100)) = paise := by
  have hcast : (paise : ℚ) < 10 ^ 11 := by exact_mod_cast hlt
  have hone : (1 : ℚ) ≤ paise := by exact_mod_cast hpos
  have hpow : (2 : ℚ) ^ (30 : ℤ) = 1073741824 ∧ (2 : ℚ) ^ (37 : ℤ) = 137438953472 := by norm_num
  have hulp : (2 : ℚ) ^ ((30 : ℤ) - 53) / 2 = 1 / 16777216 ∧ (2 : ℚ) ^ ((37 : ℤ) - 53) / 2 = 1 / 131072 := by norm_num
  have hrupees : |double (paise / 100) - paise / 100| ≤ 1 / 16777216 := by
    rw [← hulp.1]
    refine abs_double_sub_le_of_lt (by positivity) ?_ (by norm_num)
    rw [hpow.1]
    linarith
  obtain ⟨hlo, hhi⟩ := abs_le.mp hrupees
  have hpaise : |double (double (paise / 100) * 100) - double (paise / 100) * 100| ≤ 1 / 131072 := by
    rw [← hulp.2]
    refine abs_double_sub_le_of_lt (by linarith) ?_ (by norm_num)
    rw [hpow.2]
    linarith
  obtain ⟨hlo', hhi'⟩ := abs_le.mp hpaise
  refine halfEven_eq_of_near (Or.inl ?_)
  rw [abs_lt]
  push_cast
  constructor
  · linarith
  · linarith

/-! ### The UPI id of a link -/

theorem mem_of_mem_line {t : Text} {c : Char} (h : c ∈ t) : c ∈ line t ∨ c = '\n' := by
  unfold line
  split_ifs with hlast
  · have hne : t ≠ [] := List.ne_nil_of_mem h
    rw [List.getLast?_eq_some_getLast hne, Option.some_inj] at hlast
    rw [← List.dropLast_append_getLast hne, hlast] at h
    simpa using h
  · exact Or.inl h

theorem address_split {name provider : Text → Prop} {t : Text} (h : Address name provider t) :
    ∃ s r, line t = s ++ '@' :: r ∧ name s ∧ provider r := by
  obtain ⟨hname, hmem, hprovider⟩ := h
  refine ⟨_, _, ?_, hname, hprovider⟩
  have hne : (line t).dropWhile (· ≠ '@') ≠ [] := by
    intro hnil
    exact absurd (List.dropWhile_eq_nil_iff.mp hnil '@' hmem) (by decide)
  have hhead : ((line t).dropWhile (· ≠ '@')).head hne = '@' := by
    simpa using List.head_dropWhile_not (p := (· ≠ '@')) (l := line t) hne
  conv_lhs => rw [← List.takeWhile_append_dropWhile (p := (· ≠ '@')) (l := line t), ← List.cons_head_tail hne, hhead]
  rw [List.drop_one]

theorem address_append {name provider : Text → Prop} {s r : Text} (hname : name s) (hat : '@' ∉ s)
    (hprovider : provider r) (hend : '\n' ∉ s ++ '@' :: r) : Address name provider (s ++ '@' :: r) := by
  have hs : ∀ c ∈ s, decide (c ≠ '@') = true := fun c hc => decide_eq_true fun heq => hat (heq ▸ hc)
  unfold Address
  rw [line_eq_self hend, List.takeWhile_append_of_pos hs, List.dropWhile_append_of_pos hs,
    List.takeWhile_cons_of_neg (by decide), List.dropWhile_cons_of_neg (by decide), List.append_nil]
  exact ⟨hname, by simp, hprovider⟩

theorem range_of_isAlphanum {c : Char} (h : c.isAlphanum) : c.toNat < 128 := by
  simp only [Char.isAlphanum, Char.isAlpha, Char.isUpper, Char.isLower, Char.isDigit, Bool.or_eq_true, decide_eq_true_eq,
    UInt32.le_iff_toNat_le] at h
  have hnat : c.val.toNat = c.toNat := rfl
  simp at h
  omega

theorem ascii_of_vpaMatches {pa : Text} (h : VpaMatches pa) : ∀ c ∈ pa, c.toNat < 128 := by
  obtain ⟨s, r, hline, ⟨-, -, hs⟩, -, -, hr⟩ := address_split h
  have hmarks : ∀ c ∈ ['.', '_', '-', '@', '\n'], c.toNat < 128 := by decide
  intro c hc
  rcases mem_of_mem_line hc with hc | rfl
  · rw [hline, List.mem_append, List.mem_cons] at hc
    rcases hc with hc | rfl | hc
    · rcases hs c hc with hc | hc
      · exact range_of_isAlphanum hc
      · exact hmarks c (by simp at hc ⊢; tauto)
    · decide
    · rcases hr c hc with hc | hc
      · exact range_of_isAlphanum hc
      · exact hmarks c (by simp at hc ⊢; tauto)
  · decide

def strangers : List Char := ['\u0130', '\u0131', '\u017F']

def small (c : Char) : Char := if c = '\u212A' then 'k' else c.toLower

theorem small_facts {c : Char} (h : Letter c ∨ c.isDigit) (hc : c ∉ strangers) :
    lowerChar c = [small c] ∧ (small c).isAlphanum := by
  by_cases hkelvin : c = '\u212A'
  · subst hkelvin
    decide
  have hfolding : c ∉ foldings := by
    simp only [strangers, foldings, List.mem_cons, List.not_mem_nil, or_false, not_or] at hc ⊢
    exact ⟨hc.1, hc.2.1, hc.2.2, hkelvin⟩
  have halnum : c.isAlphanum := by
    rcases h with (h | h) | h
    · simp [Char.isAlphanum, h]
    · exact absurd h hfolding
    · simp [Char.isAlphanum, h]
  have hlower : c.toLower.isAlphanum := by
    have hall : ∀ n < 128, (Char.ofNat n).isAlphanum → (Char.ofNat n).toLower.isAlphanum := by decide
    have := hall c.toNat (range_of_isAlphanum halnum)
    rw [Char.ofNat_toNat] at this
    exact this halnum
  have hdotted : c ≠ '\u0130' := fun heq => hc (by simp [strangers, heq])
  rw [lowerChar, small, if_neg hkelvin, if_neg hdotted, if_neg hfolding, if_neg hkelvin]
  exact ⟨rfl, hlower⟩

theorem no_line_feed (py : Python) {text : Text} (h : UpiMatches (strip py.toUnicode text)) :
    '\n' ∉ strip py.toUnicode text := by
  have hline : line (strip py.toUnicode text) = strip py.toUnicode text := by
    refine if_neg fun hlast => ?_
    have hne : strip py.toUnicode text ≠ [] := by
      intro hnil
      rw [hnil] at hlast
      cases hlast
    have hspace : ¬ py.space ((strip py.toUnicode text).getLast hne) := List.rdropWhile_last_not _ _ hne
    rw [List.getLast?_eq_some_getLast hne, Option.some_inj] at hlast
    rw [hlast, py.space_ascii _ (by decide)] at hspace
    exact hspace (by decide)
  obtain ⟨s, r, hsplit, ⟨-, -, hs⟩, ⟨hr1, -, hfirst⟩, -, -, hrest⟩ := address_split h
  have hfeed : ¬ (Letter '\n' ∨ '\n'.isDigit ∨ '\n' ∈ ['.', '-', '_']) ∧ ¬ Letter '\n' ∧ ¬ (Letter '\n' ∨ '\n'.isDigit) :=
    by decide
  rw [← hline, hsplit, List.mem_append, List.mem_cons, ← List.take_append_drop 1 r, List.mem_append]
  rintro (h | h | h | h)
  · exact hfeed.1 (hs _ h)
  · exact absurd h (by decide)
  · exact hfeed.2.1 (hfirst _ h)
  · exact hfeed.2.2 (hrest _ h)

/-- An id that the sign-up takes is one that `/pay` takes, if all its letters are ASCII, or stored as such. -/
theorem vpaMatches_iff (py : Casing) {t : Text} (h : UpiMatches t) (hend : '\n' ∉ t) :
    VpaMatches (py.lower t) ↔ ∀ c ∈ strangers, c ∉ t := by
  obtain ⟨s, r, hline, ⟨hs2, hs40, hs⟩, ⟨hr1, -, hfirst⟩, hd1, hd20, hrest⟩ := address_split h
  rw [line_eq_self hend] at hline
  have hr : ∀ c ∈ r, Letter c ∨ c.isDigit := by
    intro c hc
    rw [← List.take_append_drop 1 r, List.mem_append] at hc
    rcases hc with hc | hc
    · exact Or.inl (hfirst c hc)
    · exact hrest c hc
  have hlower : py.lower t = t.flatMap lowerChar := by
    refine py.lower_foldings t fun c hc => ?_
    have hletter : ∀ c, Letter c ∨ c.isDigit → c.toNat < 128 ∨ c ∈ foldings := by
      rintro c ((h | h) | h)
      · exact Or.inl (range_of_isAlphanum (by simp [Char.isAlphanum, h]))
      · exact Or.inr h
      · exact Or.inl (range_of_isAlphanum (by simp [Char.isAlphanum, h]))
    have hmarks : ∀ c ∈ ['.', '-', '_'], c.toNat < 128 := by decide
    rw [hline, List.mem_append, List.mem_cons] at hc
    rcases hc with hc | rfl | hc
    · rcases hs c hc with h | h | h
      · exact hletter c (Or.inl h)
      · exact hletter c (Or.inr h)
      · exact Or.inl (hmarks c h)
    · exact Or.inl (by decide)
    · exact hletter c (hr c hc)
  constructor
  · intro hvpa c hc hmem
    have hascii := ascii_of_vpaMatches hvpa
    rw [hlower] at hascii
    have hodd : ∀ c ∈ strangers, ∃ d ∈ lowerChar c, 128 ≤ d.toNat := by decide
    obtain ⟨d, hd, hge⟩ := hodd c hc
    have := hascii d (List.mem_flatMap.mpr ⟨c, hmem, hd⟩)
    omega
  · intro hnone
    have hmember : ∀ c ∈ s ++ r, c ∉ strangers := by
      intro c hc hstrange
      refine hnone c hstrange ?_
      rw [hline]
      simp only [List.mem_append, List.mem_cons] at hc ⊢
      tauto
    have hmarks : ∀ c ∈ ['.', '-', '_'], lowerChar c = [small c] ∧ small c = c ∧ c ∈ ['.', '_', '-'] := by decide
    have hname : ∀ c ∈ s, lowerChar c = [small c] ∧ ((small c).isAlphanum ∨ small c ∈ ['.', '_', '-']) := by
      intro c hc
      have hstrange := hmember c (List.mem_append_left _ hc)
      rcases hs c hc with h | h | h
      · exact (small_facts (Or.inl h) hstrange).imp_right Or.inl
      · exact (small_facts (Or.inr h) hstrange).imp_right Or.inl
      · obtain ⟨hsingle, heq, hmark⟩ := hmarks c h
        exact ⟨hsingle, Or.inr (by rwa [heq])⟩
    have hprovider : ∀ c ∈ r, lowerChar c = [small c] ∧ (small c).isAlphanum := fun c hc =>
      small_facts (hr c hc) (hmember c (List.mem_append_right _ hc))
    have hsmall : py.lower t = s.map small ++ '@' :: r.map small := by
      have hmap : ∀ u : Text, (∀ c ∈ u, lowerChar c = [small c]) → u.flatMap lowerChar = u.map small := by
        intro u hu
        rw [List.map_eq_flatMap]
        exact List.flatMap_congr hu
      rw [hlower, hline, List.flatMap_append, List.flatMap_cons, hmap s fun c hc => (hname c hc).1,
        hmap r fun c hc => (hprovider c hc).1]
      rfl
    have hexcluded : ∀ c ∈ ['@', '\n'], ¬ (c.isAlphanum ∨ c ∈ ['.', '_', '-']) := by decide
    have hnone : ∀ c ∈ ['@', '\n'], c ∉ s.map small ∧ c ∉ r.map small := by
      intro c hc
      constructor
      · intro hmem
        obtain ⟨d, hd, rfl⟩ := List.mem_map.mp hmem
        exact hexcluded _ hc (hname d hd).2
      · intro hmem
        obtain ⟨d, hd, rfl⟩ := List.mem_map.mp hmem
        exact hexcluded _ hc (Or.inl (hprovider d hd).2)
    rw [hsmall]
    refine address_append ⟨?_, ?_, ?_⟩ (hnone '@' (by decide)).1 ⟨?_, ?_, ?_⟩ ?_
    · rwa [List.length_map]
    · rw [List.length_map]
      omega
    · exact List.forall_mem_map.mpr fun c hc => (hname c hc).2
    · rw [List.length_map]
      rw [List.length_drop] at hd1
      omega
    · rw [List.length_map]
      rw [List.length_drop] at hd20
      omega
    · exact List.forall_mem_map.mpr fun c hc => Or.inl (hprovider c hc).2
    · simp [(hnone '\n' (by decide)).1, (hnone '\n' (by decide)).2]

/-! ### When a link works -/

theorem pay_payUrl (py : Python) (base : BaseUrl) (vpa payee note : Text) (paise : ℕ) :
    pay py (queryOf (payUrl base vpa payee paise note)) =
      if VpaMatches vpa ∧ AmountMatches py (formatAmount paise) ∧ payee.length ≤ 80 ∧ note.length ≤ 80 then
        (float py (formatAmount paise)).map fun x => ⟨vpa, payee, (halfEven (double (x * 100))).toNat, note⟩
      else none := by
  unfold pay value
  rw [parseQuery_payUrl]
  rfl

/-- **A link works** if and only if the UPI id of the shop has none of the letters `İ`, `ı` and `ſ`, its name and the
reference of the invoice have at most eighty characters, and the amount is below a thousand million rupees: then `/pay`
redirects to the same id, name, amount and reference. -/
theorem pay_payUrl_iff (py : Casing) (text vpa : Text) (hstored : storedUpi py.toPython text = some (some vpa))
    (base : BaseUrl) (payee note : Text) (paise : ℕ) (hpos : 1 ≤ paise) :
    pay py.toPython (queryOf (payUrl base vpa payee paise note)) = some ⟨vpa, payee, paise, note⟩ ↔
      (∀ c ∈ strangers, c ∉ strip py.toUnicode text) ∧ payee.length ≤ 80 ∧
        note.length ≤ 80 ∧ paise < 10 ^ 11 := by
  have hupi : UpiMatches (strip py.toUnicode text) ∧ vpa = py.lower (strip py.toUnicode text) := by
    unfold storedUpi at hstored
    split_ifs at hstored with hskip hmatches
    · cases hstored
    · exact ⟨hmatches, (Option.some.inj (Option.some.inj hstored)).symm⟩
  obtain ⟨hmatches, rfl⟩ := hupi
  rw [← vpaMatches_iff py hmatches (no_line_feed py.toPython hmatches)]
  have hamount := amountMatches_formatAmount py.toPython hpos
  rw [pay_payUrl]
  constructor
  · intro hpay
    split_ifs at hpay with hall
    exact ⟨hall.1, hall.2.2.1, hall.2.2.2, hamount.mp hall.2.1⟩
  · rintro ⟨hvpa, hpayee, hnote, hlt⟩
    rw [if_pos ⟨hvpa, hamount.mpr hlt, hpayee, hnote⟩, float_formatAmount py.toPython hpos hlt, Option.map_some,
      halfEven_double paise hpos hlt, Int.toNat_natCast]

/-- The tables of ASCII, with the letters that the sign-up takes for such of ASCII. -/
def plainCasing : Casing where
  toPython := { plainPython with
    lower := fun t => t.flatMap lowerChar
    lower_ascii := by
      intro t ht
      rw [List.map_eq_flatMap]
      refine List.flatMap_congr fun c hc => ?_
      have hfolding : ∀ x ∈ foldings, c ≠ x := by
        have hall : ∀ x ∈ foldings, 128 ≤ x.toNat := by decide
        rintro x hx rfl
        have := hall c hx
        have := ht c hc
        omega
      rw [lowerChar, if_neg (hfolding _ (by decide)), if_neg (hfolding _ (by decide)),
        if_neg fun hmem => hfolding c hmem rfl] }
  lower_foldings _ _ := rfl

def server : BaseUrl := ⟨"https://smara.in/".toList, by decide, by decide⟩

/-- Forty thousand rupees and ten paise. -/
theorem pay_payUrl_iff_demo : pay plainCasing.toPython
    (queryOf (payUrl server "ramesh@upi".toList "Ramesh Hardware".toList 4000010 "DEMO 102&3".toList)) =
      some ⟨"ramesh@upi".toList, "Ramesh Hardware".toList, 4000010, "DEMO 102&3".toList⟩ :=
  (pay_payUrl_iff plainCasing " Ramesh@UPI ".toList _ (by decide) server _ _ _ (by decide)).mpr
    ⟨by decide, by decide, by decide, by decide⟩

/-- The link of an invoice whose reference has eighty-one characters is refused. -/
theorem long_reference_refused : ¬ ∀ (py : Casing) (text vpa : Text), storedUpi py.toPython text = some (some vpa) →
    ∀ (base : BaseUrl) (payee note : Text) (paise : ℕ), 1 ≤ paise →
      pay py.toPython (queryOf (payUrl base vpa payee paise note)) = some ⟨vpa, payee, paise, note⟩ := by
  intro h
  have hpay := h plainCasing "ramesh@upi".toList _ (by decide : _ = some (some "ramesh@upi".toList)) server
    "Ramesh Hardware".toList (List.replicate 81 'A') 100 (by decide)
  rw [pay_payUrl, if_neg (by simp)] at hpay
  cases hpay

end Smara.Server.PayLinks
