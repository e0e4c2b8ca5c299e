import Mathlib.Data.Char
import Mathlib.Data.List.DropRight

/-! # Phone numbers

Parties are found by their phone. The number of a party is read from a sheet, from a sheet that a program in the
sandbox has written, or from the rows of Tally, and the number of a sender is what WhatsApp reports.

* `parsePhone`, `phone`, `syncPhone`, `normalizePhone`: the four readings.
* `Mobile`, `Spelling`: a mobile number, and the ways to write it.
* `phone_keys`: of every spelling the sheet and the sandbox read the number of the sender, and the rows of Tally
  never do. -/

namespace Smara.Ingest

abbrev Text := List Char

/-- The classes of characters that depend on Unicode tables, which ASCII fixes. -/
structure Unicode where
  /-- `\d` of a regular expression -/
  decimal : Char → Bool
  /-- `str.isdigit` -/
  digit : Char → Bool
  /-- `str.isspace` -/
  space : Char → Bool
  decimal_ascii : ∀ c, c.toNat < 128 → decimal c = c.isDigit
  digit_ascii : ∀ c, c.toNat < 128 → digit c = c.isDigit
  space_ascii : ∀ c, c.toNat < 128 →
    space c = decide (c.toNat = 32 ∨ 9 ≤ c.toNat ∧ c.toNat ≤ 13 ∨ 28 ≤ c.toNat ∧ c.toNat ≤ 31)

variable (u : Unicode)

/-! ### The readings -/

/-- `s.strip()` -/
def strip (s : Text) : Text := (s.dropWhile u.space).rdropWhile u.space

/-- `s.removesuffix(suffix)` -/
def removeSuffix (suffix s : Text) : Text :=
  if suffix <:+ s then s.take (s.length - suffix.length) else s

/-- The number with its country code, or nothing: the end of `parse_phone` and of `phone`. -/
def withCode (digits : Text) : Text :=
  let digits := if digits.length = 10 then "91".toList ++ digits else digits
  if 11 ≤ digits.length ∧ digits.length ≤ 15 then digits else []

/-- `parse_phone` of `sheet_mapper`, of the text of a cell -/
def parsePhone (v : Text) : Text := withCode ((removeSuffix ".0".toList v).filter u.decimal)

/-- `phone` of `munim_helpers` -/
def phone (v : Text) : Text := withCode ((removeSuffix ".0".toList (strip u v)).filter u.decimal)

/-- The phone of a row in `apply_sync` -/
def syncPhone (v : Text) : Text := (v.filter u.digit).rtake 10

def normalizePhone (raw : Text) : Text := raw.filter u.digit

/-! ### Spellings -/

/-- A mobile number, without its country code. -/
structure Mobile where
  digits : Text
  length : digits.length = 10
  decimal : ∀ c ∈ digits, c.isDigit

/-- The number that WhatsApp reports: its digits with the country code. -/
def Mobile.sender (n : Mobile) : Text := "91".toList ++ n.digits

def Separator (c : Char) : Prop := c = ' ' ∨ c = '-'

instance : DecidablePred Separator := fun _ => inferInstanceAs (Decidable (_ ∨ _))

/-- A way to write a number: with or without its country code, with spaces and dashes, and with the suffix that a
spreadsheet adds to a number. -/
structure Spelling (n : Mobile) where
  code : Text
  body : Text
  suffix : Text
  code_mem : code ∈ ["".toList, "+91".toList, "91".toList]
  suffix_mem : suffix ∈ ["".toList, ".0".toList]
  spells : (body.filter fun c => ¬ Separator c) = code ++ n.digits

variable {u} {n : Mobile}

def Spelling.text (s : Spelling n) : Text := s.body ++ s.suffix

/-! ### Digits of a spelling -/

theorem range_of_isDigit {c : Char} (h : c.isDigit) : 48 ≤ c.toNat ∧ c.toNat ≤ 57 := by
  simp only [Char.isDigit, Bool.and_eq_true, decide_eq_true_eq, UInt32.le_iff_toNat_le, ge_iff_le] at h
  exact h

def FindsDigits (p : Char → Bool) : Prop := ∀ c : Char, c.toNat < 128 → p c = c.isDigit

theorem FindsDigits.of_isDigit {p : Char → Bool} (hp : FindsDigits p) {c : Char} (h : c.isDigit) : p c := by
  have := range_of_isDigit h
  rw [hp c (by omega)]
  exact h

theorem Spelling.mem_body (s : Spelling n) {c : Char} (hc : c ∈ s.body) : Separator c ∨ c = '+' ∨ c.isDigit := by
  by_cases hsep : Separator c
  · exact Or.inl hsep
  · refine Or.inr ?_
    have hmem : c ∈ s.code ++ n.digits := by
      rw [← s.spells]
      simp [hc, hsep]
    rcases List.mem_append.mp hmem with hcode | hdigits
    · have hall : ∀ code ∈ ["".toList, "+91".toList, "91".toList], ∀ c ∈ code, c = '+' ∨ c.isDigit := by simp
      exact hall s.code s.code_mem c hcode
    · exact Or.inr (n.decimal c hdigits)

theorem Spelling.dot_notMem_body (s : Spelling n) : '.' ∉ s.body := by
  intro hdot
  have := s.mem_body hdot
  revert this
  decide

theorem Spelling.filter_body (s : Spelling n) {p : Char → Bool} (hp : FindsDigits p) :
    s.body.filter p = n.digits ∨ s.body.filter p = n.sender := by
  have hsep : ∀ c, Separator c → p c = false := by
    rintro c (rfl | rfl)
    · exact hp ' ' (by decide)
    · exact hp '-' (by decide)
  have hbody : s.body.filter p = (s.code ++ n.digits).filter p := by
    rw [← s.spells, List.filter_filter]
    refine List.filter_congr fun c _ => ?_
    by_cases h : Separator c
    · simp [h, hsep c h]
    · simp [h]
  have hdigits : n.digits.filter p = n.digits := by
    refine List.filter_eq_self.mpr fun c hc => ?_
    exact hp.of_isDigit (n.decimal c hc)
  rw [hbody, List.filter_append, hdigits]
  have hplus : p '+' = false := hp '+' (by decide)
  have hnine : p '9' = true := hp '9' (by decide)
  have hone : p '1' = true := hp '1' (by decide)
  have hcode := s.code_mem
  simp only [List.mem_cons, List.not_mem_nil, or_false] at hcode
  rcases hcode with hcode | hcode | hcode
  · left
    simp [hcode]
  · right
    simp [hcode, Mobile.sender, hplus, hnine, hone]
  · right
    simp [hcode, Mobile.sender, hnine, hone]

theorem Spelling.suffix_cases (s : Spelling n) : s.suffix = [] ∨ s.suffix = ".0".toList := by
  simpa using s.suffix_mem

/-! ### What is read of a spelling -/

theorem withCode_digits (n : Mobile) : withCode n.digits = n.sender := by
  have hlength := n.length
  unfold withCode Mobile.sender
  simp [hlength]

theorem withCode_sender (n : Mobile) : withCode n.sender = n.sender := by
  have hlength : n.sender.length = 12 := by simp [Mobile.sender, n.length]
  unfold withCode
  simp [hlength]

theorem removeSuffix_append (suffix s : Text) : removeSuffix suffix (s ++ suffix) = s := by
  unfold removeSuffix
  rw [if_pos (List.suffix_append s suffix)]
  simp

theorem removeSuffix_of_notMem {s : Text} (h : '.' ∉ s) : removeSuffix ".0".toList s = s := by
  unfold removeSuffix
  refine if_neg fun hsuffix => h ?_
  exact hsuffix.subset (by decide)

theorem removeSuffix_text {body suffix : Text} (hbody : '.' ∉ body) (hsuffix : suffix = [] ∨ suffix = ".0".toList) :
    removeSuffix ".0".toList (body ++ suffix) = body := by
  rcases hsuffix with rfl | rfl
  · rw [List.append_nil]
    exact removeSuffix_of_notMem hbody
  · exact removeSuffix_append _ _

theorem withCode_body (s : Spelling n) {p : Char → Bool} (hp : FindsDigits p) :
    withCode (s.body.filter p) = n.sender := by
  rcases s.filter_body hp with h | h
  · rw [h, withCode_digits]
  · rw [h, withCode_sender]

theorem parsePhone_text (u : Unicode) (s : Spelling n) : parsePhone u s.text = n.sender := by
  unfold parsePhone Spelling.text
  rw [removeSuffix_text s.dot_notMem_body s.suffix_cases]
  exact withCode_body s u.decimal_ascii

theorem Mobile.isDigit_sender (n : Mobile) : ∀ c ∈ n.sender, c.isDigit := by
  intro c hc
  rcases List.mem_append.mp hc with hc | hc
  · have hall : ∀ c ∈ "91".toList, c.isDigit := by simp
    exact hall c hc
  · exact n.decimal c hc

theorem Mobile.filter_sender (n : Mobile) {p : Char → Bool} (hp : FindsDigits p) : n.sender.filter p = n.sender :=
  List.filter_eq_self.mpr fun c hc => hp.of_isDigit (n.isDigit_sender c hc)

theorem parsePhone_sender (u : Unicode) (n : Mobile) : parsePhone u n.sender = n.sender := by
  have hdot : '.' ∉ n.sender := fun h => absurd (n.isDigit_sender '.' h) (by decide)
  unfold parsePhone
  rw [removeSuffix_of_notMem hdot, n.filter_sender u.decimal_ascii, withCode_sender]

theorem normalizePhone_sender (u : Unicode) (n : Mobile) : normalizePhone u n.sender = n.sender :=
  n.filter_sender u.digit_ascii

/-! ### White space around a text -/

theorem filter_dropWhile {p q : Char → Bool} {l : Text} (h : ∀ c ∈ l, q c → p c = false) :
    (l.dropWhile q).filter p = l.filter p := by
  induction l with
  | nil => rfl
  | cons c l ih =>
    obtain ⟨hc, hl⟩ := List.forall_mem_cons.mp h
    by_cases hq : q c
    · rw [List.dropWhile_cons_of_pos hq, ih hl, List.filter_cons_of_neg (by simp [hc hq])]
    · rw [List.dropWhile_cons_of_neg hq]

theorem filter_rdropWhile {p q : Char → Bool} {l : Text} (h : ∀ c ∈ l, q c → p c = false) :
    (l.rdropWhile q).filter p = l.filter p := by
  have hreverse := filter_dropWhile (l := l.reverse) fun c hc => h c (List.mem_reverse.mp hc)
  rw [List.rdropWhile, List.filter_reverse, hreverse, List.filter_reverse, List.reverse_reverse]

theorem Spelling.decimal_of_space (s : Spelling n) {c : Char} (hc : c ∈ s.body) (hspace : u.space c) :
    u.decimal c = false := by
  rcases s.mem_body hc with (rfl | rfl) | rfl | hdigit
  · exact u.decimal_ascii ' ' (by decide)
  · exact u.decimal_ascii '-' (by decide)
  · exact u.decimal_ascii '+' (by decide)
  · have hrange := range_of_isDigit hdigit
    rw [u.space_ascii c (by omega), decide_eq_true_eq] at hspace
    omega

theorem Spelling.dropWhile_body_ne_nil (s : Spelling n) : s.body.dropWhile u.space ≠ [] := by
  intro hnil
  have hfilter : s.body.filter u.decimal = [] := by
    have := filter_dropWhile fun c hc => s.decimal_of_space (u := u) hc
    rw [← this, hnil, List.filter_nil]
  have hlength := n.length
  rcases s.filter_body u.decimal_ascii with h | h
  · rw [hfilter] at h
    simp [← h] at hlength
  · rw [hfilter] at h
    simp [Mobile.sender] at h

theorem Spelling.strip_text (u : Unicode) (s : Spelling n) :
    ∃ body, strip u s.text = body ++ s.suffix ∧ '.' ∉ body ∧ body.filter u.decimal = s.body.filter u.decimal := by
  have hdrop : s.text.dropWhile u.space = s.body.dropWhile u.space ++ s.suffix := by
    unfold Spelling.text
    rw [List.dropWhile_append, if_neg]
    simpa using s.dropWhile_body_ne_nil (u := u)
  have hfilter : (s.body.dropWhile u.space).filter u.decimal = s.body.filter u.decimal :=
    filter_dropWhile fun c hc => s.decimal_of_space hc
  have hmem : ∀ c ∈ s.body.dropWhile u.space, c ∈ s.body := fun c hc => List.dropWhile_subset _ hc
  unfold strip
  rw [hdrop]
  rcases s.suffix_cases with hsuffix | hsuffix
  · refine ⟨(s.body.dropWhile u.space).rdropWhile u.space, by simp [hsuffix], fun hdot => ?_, ?_⟩
    · exact s.dot_notMem_body (hmem _ ((List.rdropWhile_prefix _ _).subset hdot))
    · rw [filter_rdropWhile fun c hc => s.decimal_of_space (hmem c hc), hfilter]
  · refine ⟨s.body.dropWhile u.space, ?_, fun hdot => s.dot_notMem_body (hmem _ hdot), hfilter⟩
    have hzero : ¬ u.space '0' := by simp [u.space_ascii '0' (by decide)]
    have happ : s.body.dropWhile u.space ++ ".0".toList = (s.body.dropWhile u.space ++ ['.']) ++ ['0'] := by simp
    rw [hsuffix, happ, List.rdropWhile_concat_neg _ _ _ hzero]

theorem phone_text (u : Unicode) (s : Spelling n) : phone u s.text = n.sender := by
  obtain ⟨body, hstrip, hdot, hfilter⟩ := s.strip_text u
  unfold phone
  rw [hstrip, removeSuffix_text hdot s.suffix_cases, hfilter]
  exact withCode_body s u.decimal_ascii

theorem length_syncPhone (u : Unicode) (v : Text) : (syncPhone u v).length ≤ 10 := by
  unfold syncPhone List.rtake
  rw [List.length_drop]
  omega

/-- **Phone keys.** Of every spelling of a mobile number, the sheet and the sandbox read the number that WhatsApp
reports of the sender. The rows of Tally are never read so. -/
theorem phone_keys (u : Unicode) (n : Mobile) (s : Spelling n) :
    parsePhone u s.text = normalizePhone u n.sender ∧ parsePhone u (phone u s.text) = normalizePhone u n.sender ∧
      syncPhone u s.text ≠ normalizePhone u n.sender := by
  rw [normalizePhone_sender, phone_text]
  refine ⟨parsePhone_text u s, parsePhone_sender u n, fun heq => ?_⟩
  have hlength := length_syncPhone u s.text
  rw [heq, Mobile.sender, List.length_append, n.length] at hlength
  simp at hlength

def ascii : Unicode where
  decimal := Char.isDigit
  digit := Char.isDigit
  space c := decide (c.toNat = 32 ∨ 9 ≤ c.toNat ∧ c.toNat ≤ 13 ∨ 28 ≤ c.toNat ∧ c.toNat ≤ 31)
  decimal_ascii _ _ := rfl
  digit_ascii _ _ := rfl
  space_ascii _ _ := rfl

/-- A number of ten digits is kept without its country code by the rows of Tally. -/
theorem phone_keys_differ : parsePhone ascii "9876543210".toList = normalizePhone ascii "919876543210".toList ∧
    syncPhone ascii "9876543210".toList ≠ normalizePhone ascii "919876543210".toList := by
  decide

end Smara.Ingest
