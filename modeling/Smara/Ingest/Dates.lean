import Smara.Ingest.Money

/-! # Dates of a sheet

A date is written with its day first, and read with the first of eight formats that fits. A format is tried as a
regular expression is: the alternatives of a directive in their order, and nothing may be left behind the first match.

* `Date`: a date of the calendar.
* `strftime`, `strptime`, `parseDate`: a date as it is written and as it is read.
* `parseDate_strftime`: a date whose year has four digits is read as it was. -/

namespace Smara.Ingest

/-! ### The calendar -/

def Leap (year : ℕ) : Prop := year % 4 = 0 ∧ (year % 100 ≠ 0 ∨ year % 400 = 0)

instance : DecidablePred Leap := fun _ => inferInstanceAs (Decidable (_ ∧ _))

def daysIn (year month : ℕ) : ℕ :=
  if month = 2 then if Leap year then 29 else 28
  else if month ∈ [4, 6, 9, 11] then 30
  else 31

def OnCalendar (year month day : ℕ) : Prop :=
  (1 ≤ year ∧ year ≤ 9999) ∧ (1 ≤ month ∧ month ≤ 12) ∧ 1 ≤ day ∧ day ≤ daysIn year month

instance (year month day : ℕ) : Decidable (OnCalendar year month day) := inferInstanceAs (Decidable (_ ∧ _))

structure Date where
  year : ℕ
  month : ℕ
  day : ℕ
  valid : OnCalendar year month day
  deriving DecidableEq

/-- `date(year, month, day)` -/
def Date.mk? (year month day : ℕ) : Option Date :=
  if h : OnCalendar year month day then some ⟨year, month, day, h⟩ else none

/-- The day after; none after the last year. -/
def Date.next (d : Date) : Option Date :=
  if d.day < daysIn d.year d.month then Date.mk? d.year d.month (d.day + 1)
  else if d.month < 12 then Date.mk? d.year (d.month + 1) 1
  else Date.mk? (d.year + 1) 1 1

/-- `d + timedelta(days=n)` -/
def Date.addDays : ℕ → Date → Option Date
  | 0, d => some d
  | n + 1, d => d.next.bind (Date.addDays n)

variable (py : Python)

/-! ### Writing -/

def twoDigits (n : ℕ) : Text := [(n / 10 % 10).digitChar, (n % 10).digitChar]

def fourDigits (n : ℕ) : Text := twoDigits (n / 100) ++ twoDigits (n % 100)

/-- `due.strftime("%d/%m/%Y")` -/
def strftime (d : Date) : Text :=
  twoDigits d.day ++ '/' :: (twoDigits d.month ++ '/' ::
    (if py.padsYear ∨ 1000 ≤ d.year then fourDigits d.year else Nat.toDigits 10 d.year))

/-- `due.isoformat()` -/
def Date.isoformat (d : Date) : Text := fourDigits d.year ++ '-' :: (twoDigits d.month ++ '-' :: twoDigits d.day)

/-! ### Reading -/

inductive Directive
  | day | month | monthName | year | shortYear
  | literal (c : Char)
  | spaces

/-- What has been read of a date. -/
structure Parts where
  year : ℕ := 1900
  month : ℕ := 1
  day : ℕ := 1

/-- A digit from one to nine. -/
def nonzero (c : Char) : Bool := decide ('1' ≤ c ∧ c ≤ '9')

def one (p : Char → Bool) : Text → List (ℕ × Text)
  | c :: s => if p c then [(py.value c, s)] else []
  | [] => []

def two (p q : Char → Bool) : Text → List (ℕ × Text)
  | c :: d :: s => if p c ∧ q d then [(10 * py.value c + py.value d, s)] else []
  | _ => []

/-- `3[0-1]|[1-2]\d|0[1-9]|[1-9]| [1-9]` -/
def readDay (s : Text) : List (ℕ × Text) :=
  two py (· == '3') (fun c => c == '0' || c == '1') s ++ two py (fun c => c == '1' || c == '2') py.decimal s ++
    two py (· == '0') nonzero s ++ one py nonzero s ++ if s.head? = some ' ' then one py nonzero s.tail else []

/-- `1[0-2]|0[1-9]|[1-9]` -/
def readMonth (s : Text) : List (ℕ × Text) :=
  two py (· == '1') (fun c => c == '0' || c == '1' || c == '2') s ++ two py (· == '0') nonzero s ++ one py nonzero s

def monthNames : List Text :=
  ["jan", "feb", "mar", "apr", "may", "jun", "jul", "aug", "sep", "oct", "nov", "dec"].map String.toList

/-- The abbreviated name of a month, regardless of case. -/
def readMonthName (s : Text) : List (ℕ × Text) :=
  if (s.take 3).map Char.toLower ∈ monthNames then
    [(monthNames.idxOf ((s.take 3).map Char.toLower) + 1, s.drop 3)]
  else []

/-- Four decimal digits. -/
def readYear (s : Text) : List (ℕ × Text) :=
  (two py py.decimal py.decimal s).flatMap fun a =>
    (two py py.decimal py.decimal a.2).map fun b => (100 * a.1 + b.1, b.2)

def readShortYear (s : Text) : List (ℕ × Text) :=
  (two py py.decimal py.decimal s).map fun a => (if a.1 ≤ 68 then 2000 + a.1 else 1900 + a.1, a.2)

def readSpaces (s : Text) : List Text :=
  (List.range (s.takeWhile py.space).length).reverse.map fun n => s.drop (n + 1)

/-- The ways to read a directive, in the order in which they are tried. -/
def Directive.read (p : Parts) (s : Text) : Directive → List (Parts × Text)
  | .day => (readDay py s).map fun a => ({ p with day := a.1 }, a.2)
  | .month => (readMonth py s).map fun a => ({ p with month := a.1 }, a.2)
  | .monthName => (readMonthName s).map fun a => ({ p with month := a.1 }, a.2)
  | .year => (readYear py s).map fun a => ({ p with year := a.1 }, a.2)
  | .shortYear => (readShortYear py s).map fun a => ({ p with year := a.1 }, a.2)
  | .literal c => if s.head? = some c then [(p, s.tail)] else []
  | .spaces => (readSpaces py s).map fun s => (p, s)

def readFormat : List Directive → Parts → Text → List (Parts × Text)
  | [], p, s => [(p, s)]
  | d :: ds, p, s => (d.read py p s).flatMap fun a => readFormat ds a.1 a.2

/-- `datetime.strptime(s, fmt).date()` -/
def strptime (fmt : List Directive) (s : Text) : Option Date :=
  (readFormat py fmt {} s).head?.bind fun a => if a.2 = [] then Date.mk? a.1.year a.1.month a.1.day else none

def formats : List (List Directive) :=
  [[.day, .literal '-', .month, .literal '-', .year], [.day, .literal '/', .month, .literal '/', .year],
    [.year, .literal '-', .month, .literal '-', .day], [.day, .literal '-', .monthName, .literal '-', .year],
    [.day, .literal '-', .monthName, .literal '-', .shortYear], [.day, .literal '/', .month, .literal '/', .shortYear],
    [.day, .literal '.', .month, .literal '.', .year], [.day, .spaces, .monthName, .spaces, .year]]

/-- `parse_date` of the text of a cell -/
def parseDate (v : Text) : Option Date := formats.findSome? fun fmt => strptime py fmt (strip py.toUnicode v)

/-! ### What is read of what was written -/

variable {py}

theorem decimal_of_isDigit {c : Char} (h : c.isDigit) : py.decimal c := by
  have := range_of_isDigit h
  rw [py.decimal_ascii c (by omega)]
  exact h

@[simp] theorem decimal_digitChar {d : ℕ} (h : d < 10) : py.decimal d.digitChar = true :=
  decimal_of_isDigit (isDigit_digitChar h)

@[simp] theorem value_digitChar {d : ℕ} (h : d < 10) : py.value d.digitChar = d := by
  rw [py.value_ascii _ (isDigit_digitChar h)]
  exact Nat.toNat_digitChar_sub_48_of_lt_ten h

theorem two_twoDigits {p q : Char → Bool} {n : ℕ} {s : Text} (hn : n < 100) (hp : p (n / 10 % 10).digitChar = true)
    (hq : q (n % 10).digitChar = true) : two py p q (twoDigits n ++ s) = [(n, s)] := by
  have hvalue : 10 * (n / 10 % 10) + n % 10 = n := by omega
  simp only [twoDigits, two, List.cons_append, List.nil_append, hp, hq, and_self, if_true,
    value_digitChar (Nat.mod_lt _ (by decide : 10 > 0)), hvalue]

/-- The ways to read a directive that begin with one: it leaves this text, and every other leaves a digit first. -/
def First (n : ℕ) (s : Text) (ways : List (ℕ × Text)) : Prop :=
  ∃ others, ways = (n, s) :: others ∧ ∀ o ∈ others, o.2.head?.any Char.isDigit

theorem of_mem_one {p : Char → Bool} {s : Text} {o : ℕ × Text} (h : o ∈ one py p s) : o.2 = s.tail := by
  cases s with
  | nil => cases h
  | cons c s =>
    have hone : one py p (c :: s) = if p c then [(py.value c, s)] else [] := rfl
    rw [hone] at h
    split_ifs at h
    · rw [List.mem_singleton] at h
      rw [h]
      rfl
    · cases h

theorem two_twoDigits_eq_nil {p q : Char → Bool} {n : ℕ} {s : Text}
    (h : p (n / 10 % 10).digitChar = false ∨ q (n % 10).digitChar = false) : two py p q (twoDigits n ++ s) = [] := by
  simp only [twoDigits, two, List.cons_append, List.nil_append]
  rw [if_neg]
  rcases h with h | h
  · simp [h]
  · simp [h]

theorem isDigit_of_mem_one {p : Char → Bool} {n : ℕ} {s : Text} {o : ℕ × Text} (h : o ∈ one py p (twoDigits n ++ s)) :
    o.2.head?.any Char.isDigit := by
  rw [of_mem_one h]
  simp [twoDigits, isDigit_digitChar (Nat.mod_lt n (by decide : 10 > 0))]

theorem head?_twoDigits_ne (n : ℕ) (s : Text) : (twoDigits n ++ s).head? ≠ some ' ' := by
  have hdigit := isDigit_digitChar (Nat.mod_lt (n / 10) (by decide : 10 > 0))
  simp only [twoDigits, List.cons_append, List.head?_cons, ne_eq, Option.some.injEq]
  intro heq
  rw [heq] at hdigit
  exact absurd hdigit (by decide)

theorem first_readDay {n : ℕ} {s : Text} (h₁ : 1 ≤ n) (h₂ : n ≤ 31) : First n s (readDay py (twoDigits n ++ s)) := by
  have hones : ∀ o ∈ one py nonzero (twoDigits n ++ s), o.2.head?.any Char.isDigit := fun _ => isDigit_of_mem_one
  have hn : n < 100 := by omega
  refine ⟨one py nonzero (twoDigits n ++ s), ?_, hones⟩
  unfold readDay
  rw [if_neg (head?_twoDigits_ne n s), List.append_nil]
  -- the tens tell which alternative matches
  have htens : n / 10 = 3 ∧ n % 10 ≤ 1 ∨ n / 10 = 1 ∨ n / 10 = 2 ∨ n / 10 = 0 ∧ 1 ≤ n % 10 := by omega
  have hlow : ∀ d ≤ 1, (d.digitChar == '0' || d.digitChar == '1') = true := by decide
  have hnonzero : ∀ d < 10, 1 ≤ d → nonzero d.digitChar = true := by decide
  have hdecimal : py.decimal (n % 10).digitChar = true := decimal_digitChar (Nat.mod_lt n (by decide))
  rcases htens with ⟨ht, ho⟩ | ht | ht | ⟨ht, ho⟩
  · rw [two_twoDigits hn (by rw [ht]; rfl) (hlow _ ho), two_twoDigits_eq_nil (Or.inl (by rw [ht]; rfl)),
      two_twoDigits_eq_nil (Or.inl (by rw [ht]; rfl))]
    rfl
  · rw [two_twoDigits_eq_nil (Or.inl (by rw [ht]; rfl)), two_twoDigits hn (by rw [ht]; rfl) hdecimal,
      two_twoDigits_eq_nil (Or.inl (by rw [ht]; rfl))]
    rfl
  · rw [two_twoDigits_eq_nil (Or.inl (by rw [ht]; rfl)), two_twoDigits hn (by rw [ht]; rfl) hdecimal,
      two_twoDigits_eq_nil (Or.inl (by rw [ht]; rfl))]
    rfl
  · rw [two_twoDigits_eq_nil (Or.inl (by rw [ht]; rfl)), two_twoDigits_eq_nil (Or.inl (by rw [ht]; rfl)),
      two_twoDigits hn (by rw [ht]; rfl) (hnonzero _ (Nat.mod_lt _ (by decide)) ho)]
    rfl

theorem first_readMonth {n : ℕ} {s : Text} (h₁ : 1 ≤ n) (h₂ : n ≤ 12) :
    First n s (readMonth py (twoDigits n ++ s)) := by
  have hones : ∀ o ∈ one py nonzero (twoDigits n ++ s), o.2.head?.any Char.isDigit := fun _ => isDigit_of_mem_one
  have hn : n < 100 := by omega
  refine ⟨one py nonzero (twoDigits n ++ s), ?_, hones⟩
  unfold readMonth
  have htens : n / 10 = 1 ∧ n % 10 ≤ 2 ∨ n / 10 = 0 ∧ 1 ≤ n % 10 := by omega
  have hlow : ∀ d ≤ 2, (d.digitChar == '0' || d.digitChar == '1' || d.digitChar == '2') = true := by decide
  have hnonzero : ∀ d < 10, 1 ≤ d → nonzero d.digitChar = true := by decide
  rcases htens with ⟨ht, ho⟩ | ⟨ht, ho⟩
  · rw [two_twoDigits hn (by rw [ht]; rfl) (hlow _ ho), two_twoDigits_eq_nil (Or.inl (by rw [ht]; rfl))]
    rfl
  · rw [two_twoDigits_eq_nil (Or.inl (by rw [ht]; rfl)),
      two_twoDigits hn (by rw [ht]; rfl) (hnonzero _ (Nat.mod_lt _ (by decide)) ho)]
    rfl

theorem readYear_fourDigits {n : ℕ} (h : n ≤ 9999) : readYear py (fourDigits n) = [(n, [])] := by
  have hhigh : two py py.decimal py.decimal (twoDigits (n / 100) ++ twoDigits (n % 100)) = [(n / 100, twoDigits (n % 100))] :=
    two_twoDigits (by omega) (decimal_digitChar (Nat.mod_lt _ (by decide))) (decimal_digitChar (Nat.mod_lt _ (by decide)))
  have hlow : two py py.decimal py.decimal (twoDigits (n % 100) ++ []) = [(n % 100, [])] :=
    two_twoDigits (by omega) (decimal_digitChar (Nat.mod_lt _ (by decide))) (decimal_digitChar (Nat.mod_lt _ (by decide)))
  have hvalue : 100 * (n / 100) + n % 100 = n := by omega
  rw [List.append_nil] at hlow
  unfold readYear fourDigits
  rw [hhigh, List.flatMap_singleton, hlow, List.map_singleton, hvalue]

theorem readFormat_literal {ways : List (ℕ × Text)} {n : ℕ} {c c' : Char} {s : Text} {ds : List Directive}
    {f : ℕ → Parts} (h : First n (c' :: s) ways) (hc : ¬ c.isDigit) :
    ((ways.map fun a => (f a.1, a.2)).flatMap fun a => readFormat py (.literal c :: ds) a.1 a.2) =
      if c = c' then readFormat py ds (f n) s else [] := by
  obtain ⟨others, rfl, hothers⟩ := h
  have hnone : ((others.map fun a => (f a.1, a.2)).flatMap fun a => readFormat py (.literal c :: ds) a.1 a.2) = [] := by
    rw [List.flatMap_eq_nil_iff]
    rintro a ha
    obtain ⟨o, ho, rfl⟩ := List.mem_map.mp ha
    have hdigit := hothers o ho
    rw [readFormat, Directive.read, if_neg, List.flatMap_nil]
    intro hhead
    rw [hhead] at hdigit
    exact hc (by simpa using hdigit)
  rw [List.map_cons, List.flatMap_cons, hnone, List.append_nil, readFormat, Directive.read]
  by_cases heq : c = c'
  · simp [heq]
  · simp [heq, Ne.symm heq]

theorem Date.day_le (d : Date) : 1 ≤ d.day ∧ d.day ≤ 31 := by
  have hle : daysIn d.year d.month ≤ 31 := by
    unfold daysIn
    split_ifs <;> omega
  have := d.valid.2.2
  omega

theorem readFormat_day_month (d : Date) {c : Char} {s : Text} {ds : List Directive} (hc : ¬ c.isDigit) :
    readFormat py (.day :: .literal c :: .month :: .literal c :: ds) {}
        (twoDigits d.day ++ '/' :: (twoDigits d.month ++ '/' :: s)) =
      if c = '/' then readFormat py ds { month := d.month, day := d.day } s else [] := by
  obtain ⟨hday₁, hday₂⟩ := d.day_le
  obtain ⟨hmonth₁, hmonth₂⟩ := d.valid.2.1
  have hday : First d.day ('/' :: (twoDigits d.month ++ '/' :: s)) (readDay py _) := first_readDay hday₁ hday₂
  have hmonth : First d.month ('/' :: s) (readMonth py _) := first_readMonth hmonth₁ hmonth₂
  rw [readFormat, Directive.read, readFormat_literal (f := fun n => { day := n }) hday hc]
  by_cases heq : c = '/'
  · rw [if_pos heq, if_pos heq, readFormat, Directive.read,
      readFormat_literal (f := fun n => { month := n, day := d.day }) hmonth hc, if_pos heq]
  · rw [if_neg heq, if_neg heq]

theorem strip_eq_self {u : Unicode} {s : Text} (h : ∀ c ∈ s, u.space c = false) : strip u s = s := by
  have hdrop : s.dropWhile u.space = s := by
    cases s with
    | nil => rfl
    | cons c s => exact List.dropWhile_cons_of_neg (by simp [h c List.mem_cons_self])
  have hrdrop : s.rdropWhile u.space = s := by
    rcases List.eq_nil_or_concat s with rfl | ⟨s, c, rfl⟩
    · rfl
    · rw [List.concat_eq_append]
      exact List.rdropWhile_concat_neg _ _ _ (by simp [h c (by simp)])
  rw [strip, hdrop, hrdrop]

theorem space_of_figure {c : Char} (h : c.isDigit ∨ c = '/') : py.space c = false := by
  rcases h with h | rfl
  · have := range_of_isDigit h
    rw [py.space_ascii c (by omega), decide_eq_false_iff_not]
    omega
  · rw [py.space_ascii '/' (by decide)]
    decide

theorem isDigit_twoDigits (n : ℕ) : ∀ c ∈ twoDigits n, c.isDigit := by
  simp [twoDigits, isDigit_digitChar (Nat.mod_lt _ (by decide : 10 > 0))]

def YearPadded (py : Python) (d : Date) : Prop := py.padsYear ∨ 1000 ≤ d.year

theorem strftime_eq {d : Date} (h : py.padsYear ∨ 1000 ≤ d.year) :
    strftime py d = twoDigits d.day ++ '/' :: (twoDigits d.month ++ '/' :: fourDigits d.year) := by
  rw [strftime, if_pos h]

theorem strip_strftime {d : Date} (h : YearPadded py d) : strip py.toUnicode (strftime py d) = strftime py d := by
  refine strip_eq_self fun c hc => space_of_figure ?_
  rw [strftime_eq h] at hc
  simp only [fourDigits, List.mem_append, List.mem_cons] at hc
  rcases hc with hc | rfl | hc | rfl | hc | hc
  · exact Or.inl (isDigit_twoDigits _ c hc)
  · exact Or.inr rfl
  · exact Or.inl (isDigit_twoDigits _ c hc)
  · exact Or.inr rfl
  · exact Or.inl (isDigit_twoDigits _ c hc)
  · exact Or.inl (isDigit_twoDigits _ c hc)

/-- **Dates.** A date whose year is written with four digits is read as it was. -/
theorem parseDate_strftime {d : Date} (h : YearPadded py d) : parseDate py (strftime py d) = some d := by
  have hyear : readFormat py [.year] { month := d.month, day := d.day } (fourDigits d.year) =
      [({ year := d.year, month := d.month, day := d.day }, [])] := by
    rw [readFormat, Directive.read, readYear_fourDigits d.valid.1.2]
    rfl
  -- the first format has dashes, and the second one fits
  have hfirst : strptime py [.day, .literal '-', .month, .literal '-', .year] (strftime py d) = none := by
    rw [strptime, strftime_eq h, readFormat_day_month d (by decide), if_neg (by decide)]
    rfl
  have hsecond : strptime py [.day, .literal '/', .month, .literal '/', .year] (strftime py d) = some d := by
    rw [strptime, strftime_eq h, readFormat_day_month d (by decide), if_pos rfl, hyear]
    exact dif_pos d.valid
  unfold parseDate formats
  rw [strip_strftime h, List.findSome?_cons, hfirst, List.findSome?_cons, hsecond]

end Smara.Ingest
