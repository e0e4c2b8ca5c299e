import Smara.Ingest.Sheets

/-! # Rows from the sandbox

A program in the sandbox writes its receivables as a sheet, which the importer reads. The rows survive if the
importer guesses that the delimiter is the comma, and if amounts, dates and phones are read as they were written.

* `toRowsCsv`: the sheet.
* `Record.Sound`: the records that the importer takes.
* `Survives`: what the fields and the first lines of the sheet must be.
* `mapSheet_toRowsCsv`: then each record is one row, in order, and nothing is skipped. -/

namespace Smara.Ingest

open Lib

/-- A receivable; its amount is in paise. -/
structure Record where
  party : Text
  phone : Text
  invoice : Text
  due : Date
  amount : ℕ

variable (py : Python) (dec : Decoders)

/-! ### Writing -/

def heading : List Text :=
  ["Party Name".toList, "Mobile Number".toList, "Invoice No".toList, "Due Date".toList, "Balance".toList]

def Record.line (r : Record) : List Text := [r.party, r.phone, r.invoice, strftime py r.due, formatAmount r.amount]

def rowsText (records : List Record) : Text := Csv.writeAll ',' (heading :: records.map (Record.line py))

/-- **`to_rows_csv`**: the file. -/
def toRowsCsv (records : List Record) : ByteArray := (String.ofList (rowsText py records)).toUTF8

/-! ### The records that survive -/

/-- Party and invoice are trimmed and not blank, the sandbox accepts the phone, and the amount is positive. -/
structure Record.Sound (r : Record) : Prop where
  party : r.party ≠ []
  party_trimmed : strip py.toUnicode r.party = r.party
  invoice : r.invoice ≠ []
  invoice_trimmed : strip py.toUnicode r.invoice = r.invoice
  phone : Ingest.phone py.toUnicode r.phone ≠ []
  amount : 0 < r.amount

def Record.row (r : Record) : SheetRow := ⟨r.party, Ingest.phone py.toUnicode r.phone, r.invoice, r.amount, r.due, none⟩

def Padded (u : Unicode) (v : Text) : Prop := ∃ b w, v = b ++ ".0".toList ++ w ∧ w ≠ [] ∧ ∀ c ∈ w, u.space c

/-- Each field is of the length that is read, the year is written with four digits, the amount is written to the
paisa, and the phone does not end in `.0` and white space. -/
structure Record.Kept (r : Record) : Prop where
  party : r.party.length ≤ fieldLimit
  invoice : r.invoice.length ≤ fieldLimit
  phone : r.phone.length ≤ fieldLimit
  phone_unpadded : ¬ Padded py.toUnicode r.phone
  year : YearPadded py r.due
  amount : Exact r.amount

/-- The records are kept, and no other delimiter is in the first lines of the sheet more often than the comma. -/
structure Survives (records : List Record) : Prop where
  kept : ∀ r ∈ records, r.Kept py
  commas : ∀ c ∈ [';', '\t', '|'], (sample (rowsText py records)).count c ≤ (sample (rowsText py records)).count ','

/-! ### The delimiter and the decoder -/

variable {py dec}

theorem guess_eq {sample : Text} (h : ∀ c ∈ [';', '\t', '|'], sample.count c ≤ sample.count ',') :
    guess py sample = ',' := by
  have hlt : ∀ c ∈ [';', '\t', '|'], ¬ sample.count ',' < sample.count c := fun c hc => Nat.not_lt.mpr (h c hc)
  unfold guess
  split_ifs with hblank
  · rfl
  · rw [List.foldl_cons, if_neg (hlt ';' (by decide)), List.foldl_cons, if_neg (hlt '\t' (by decide)), List.foldl_cons,
      if_neg (hlt '|' (by decide)), List.foldl_nil]

theorem decodeText_utf8Encode {t : Text} : decodeText dec ('P' :: t).utf8Encode = 'P' :: t := by
  have hbytes : ('P' :: t).utf8Encode.data.toList.head? = some 0x50 := by
    rw [List.utf8Encode_cons, ByteArray.data_append, Array.toList_append]
    rfl
  have hmark : ('P' :: t).utf8Encode.data.toList.take 2 ∉ [[0xff, 0xfe], [0xfe, 0xff]] := by
    intro hmem
    simp only [List.mem_cons, List.not_mem_nil, or_false] at hmem
    have htake := List.head?_take (l := ('P' :: t).utf8Encode.data.toList) (i := 2)
    rw [if_neg (by decide), hbytes] at htake
    rcases hmem with hmem | hmem
    · rw [hmem] at htake
      exact absurd htake (by decide)
    · rw [hmem] at htake
      exact absurd htake (by decide)
  unfold decodeText
  rw [if_neg hmark, List.utf8Decode?_utf8Encode]
  rfl

theorem rowsText_eq (py : Python) (records : List Record) : ∃ t, rowsText py records = 'P' :: t := by
  have hrow : Csv.writeRow ',' heading =
      'P' :: "arty Name,Mobile Number,Invoice No,Due Date,Balance\r\n".toList := by decide
  refine ⟨"arty Name,Mobile Number,Invoice No,Due Date,Balance\r\n".toList ++
    Csv.writeAll ',' (records.map (Record.line py)), ?_⟩
  rw [rowsText, Csv.writeAll, List.flatMap_cons, hrow]
  rfl

theorem decodeText_toRowsCsv (records : List Record) :
    decodeText dec (toRowsCsv py records) = rowsText py records := by
  obtain ⟨t, ht⟩ := rowsText_eq py records
  rw [toRowsCsv, String.toUTF8_eq_toByteArray, String.toByteArray_ofList, ht, decodeText_utf8Encode]

/-! ### The header -/

def plainPython : Python where
  toUnicode := ascii
  value c := c.toNat - 48
  same c x := c.toLower == x
  word c := c.isAlphanum || c == '_'
  lower t := t.map Char.toLower
  upper t := t.map Char.toUpper
  padsYear := false
  otherPaise _ := some none
  value_ascii _ _ := rfl
  same_ascii _ _ _ := rfl
  word_ascii _ _ := rfl
  lower_ascii _ _ := rfl
  upper_ascii _ _ := rfl
  decimal_of_space c h := by
    have hspace : c.toNat = 32 ∨ 9 ≤ c.toNat ∧ c.toNat ≤ 13 ∨ 28 ≤ c.toNat ∧ c.toNat ≤ 31 := by simpa [ascii] using h
    refine Bool.eq_false_iff.mpr fun hdigit => ?_
    have := range_of_isDigit hdigit
    omega

def Ascii (t : Text) : Prop := ∀ c ∈ t, c.toNat < 128

instance : DecidablePred Ascii := fun t => List.decidableBAll _ t

theorem dropWhile_congr {p q : Char → Bool} {t : Text} (h : ∀ c ∈ t, p c = q c) : t.dropWhile p = t.dropWhile q := by
  induction t with
  | nil => rfl
  | cons c t ih =>
    obtain ⟨hc, ht⟩ := List.forall_mem_cons.mp h
    rw [List.dropWhile_cons, List.dropWhile_cons, hc, ih ht]

theorem space_congr {t : Text} (h : Ascii t) : ∀ c ∈ t, py.space c = ascii.space c := by
  intro c hc
  rw [py.space_ascii c (h c hc), ascii.space_ascii c (h c hc)]

theorem strip_congr {t : Text} (h : Ascii t) : strip py.toUnicode t = strip ascii t := by
  have hspace : ∀ c ∈ t, py.space c = ascii.space c := space_congr h
  have hdrop := dropWhile_congr hspace
  have hrest : ∀ c ∈ (t.dropWhile ascii.space).reverse, py.space c = ascii.space c := fun c hc =>
    space_congr h c (List.dropWhile_subset _ (List.mem_reverse.mp hc))
  rw [strip, strip, hdrop, List.rdropWhile, List.rdropWhile, dropWhile_congr hrest]

theorem squeeze_congr {t : Text} (h : Ascii t) (after : Bool) : squeeze py after t = squeeze plainPython after t := by
  induction t generalizing after with
  | nil => rfl
  | cons c t ih =>
    obtain ⟨hc, ht⟩ := List.forall_mem_cons.mp h
    have hspace : py.space c = plainPython.space c := space_congr h c List.mem_cons_self
    rw [squeeze, squeeze, hspace, ih ht, ih ht]

/-- **A heading of ASCII** is the same by every tables. -/
theorem norm_congr {h lower squeezed : Text} (hascii : Ascii h) (hlower : h.map Char.toLower = lower)
    (hasciiLower : Ascii lower)
    (hsqueezed : squeeze plainPython false (lower.map fun c => if Heading plainPython c then c else ' ') = squeezed)
    (hasciiSqueezed : Ascii squeezed) : norm py h = strip ascii squeezed := by
  have hmap : (lower.map fun c => if Heading py c then c else ' ') =
      lower.map fun c => if Heading plainPython c then c else ' ' := by
    refine List.map_congr_left fun c hc => ?_
    have hword : py.word c = plainPython.word c := by
      rw [py.word_ascii c (hasciiLower c hc), plainPython.word_ascii c (hasciiLower c hc)]
    exact if_congr (by simp only [Heading, hword]) rfl rfl
  have hasciiMap : Ascii (lower.map fun c => if Heading plainPython c then c else ' ') := by
    intro c hc
    obtain ⟨d, hd, rfl⟩ := List.mem_map.mp hc
    split_ifs
    · exact hasciiLower d hd
    · decide
  rw [norm, py.lower_ascii h hascii, hlower, hmap, squeeze_congr hasciiMap, hsqueezed, strip_congr hasciiSqueezed]

def column : Column → Option ℕ
  | .party => some 0
  | .phone => some 1
  | .invoice => some 2
  | .due => some 3
  | .amount => some 4
  | .billDate => none
  | .gstin => none

theorem norms : heading.map (norm py) =
    ["party name".toList, "mobile number".toList, "invoice no".toList, "due date".toList, "balance".toList] := by
  have hparty : norm py "Party Name".toList = "party name".toList :=
    norm_congr (by decide) rfl (by decide) rfl (by decide)
  have hphone : norm py "Mobile Number".toList = "mobile number".toList :=
    norm_congr (by decide) rfl (by decide) rfl (by decide)
  have hinvoice : norm py "Invoice No".toList = "invoice no".toList :=
    norm_congr (by decide) rfl (by decide) rfl (by decide)
  have hdue : norm py "Due Date".toList = "due date".toList :=
    norm_congr (by decide) rfl (by decide) rfl (by decide)
  have hbalance : norm py "Balance".toList = "balance".toList :=
    norm_congr (by decide) rfl (by decide) rfl (by decide)
  simp only [heading, List.map_cons, List.map_nil, hparty, hphone, hinvoice, hdue, hbalance]

theorem mapHeaders_heading : mapHeaders py (heading.map .text) = column := by
  funext col
  have hcols : (heading.map Cell.text).map (fun h => norm py h.orEmpty) = heading.map (norm py) := by
    rw [List.map_map]
    rfl
  unfold mapHeaders
  rw [hcols, norms]
  cases col <;> decide

theorem findHeader_heading (rows : List (List Cell)) : findHeader py (heading.map .text :: rows) = some (0, column) := by
  unfold findHeader
  rw [List.take_succ_cons, List.zipIdx_cons, List.findSome?_cons]
  simp only [mapHeaders_heading]
  rfl

/-! ### The phone -/

theorem filter_eq_nil_of_space {a : Text} (h : ∀ c ∈ a, py.space c) : a.filter py.decimal = [] := by
  rw [List.filter_eq_nil_iff]
  intro c hc
  simp [py.decimal_of_space c (h c hc)]

theorem exists_strip (u : Unicode) (v : Text) : ∃ a w, v = a ++ (strip u v ++ w) ∧ (∀ c ∈ a, u.space c) ∧
    ∀ c ∈ w, u.space c := by
  refine ⟨v.takeWhile u.space, (v.dropWhile u.space).rtakeWhile u.space, ?_, fun c hc => ?_, fun c hc => ?_⟩
  · rw [strip, List.rdropWhile_append_rtakeWhile, List.takeWhile_append_dropWhile]
  · exact List.mem_takeWhile_imp hc
  · exact List.mem_rtakeWhile_imp hc

theorem zero_not_space : py.space '0' = false := by
  rw [py.space_ascii '0' (by decide)]
  decide

theorem dot_not_space : py.space '.' = false := by
  rw [py.space_ascii '.' (by decide)]
  decide

theorem suffix_of_suffix_append {a b : Text} (ha : ∀ c ∈ a, py.space c) (h : ".0".toList <:+ a ++ b) :
    ".0".toList <:+ b := by
  rcases List.suffix_or_suffix_of_suffix h (List.suffix_append a b) with hb | hb
  · exact hb
  · obtain ⟨x, hx⟩ := hb
    cases x with
    | nil =>
      rw [List.nil_append] at hx
      rw [hx]
    | cons c x =>
      -- the point would be white space
      have hc : c = '.' := by
        have := congrArg List.head? hx
        simpa using this
      obtain ⟨y, hy⟩ := h
      have ha' : y ++ c :: x = a := by
        rw [← hx, ← List.append_assoc] at hy
        exact List.append_cancel_right hy
      have hspace := ha c (by simp [← ha'])
      rw [hc, dot_not_space] at hspace
      cases hspace

/-- **Phones.** The importer reads the phone as the sandbox does, unless it ends in `.0` and white space. -/
theorem parsePhone_eq_phone {v : Text} (h : ¬ Padded py.toUnicode v) :
    parsePhone py.toUnicode v = phone py.toUnicode v := by
  obtain ⟨a, w, hv, ha, hw⟩ := exists_strip py.toUnicode v
  unfold parsePhone phone
  refine congrArg withCode ?_
  generalize strip py.toUnicode v = b at hv
  by_cases hnil : w = []
  · rw [hnil, List.append_nil] at hv
    by_cases hb : ".0".toList <:+ b
    · obtain ⟨x, rfl⟩ := hb
      rw [hv, ← List.append_assoc, removeSuffix_append, removeSuffix_append, List.filter_append,
        filter_eq_nil_of_space ha, List.nil_append]
    · have hvsuffix : ¬ ".0".toList <:+ v := fun hsuffix => hb (suffix_of_suffix_append ha (hv ▸ hsuffix))
      rw [removeSuffix, if_neg hvsuffix, removeSuffix, if_neg hb, hv, List.filter_append, filter_eq_nil_of_space ha,
        List.nil_append]
  · have hb : ¬ ".0".toList <:+ b := by
      rintro ⟨x, rfl⟩
      exact h ⟨a ++ x, w, by rw [hv]; simp, hnil, hw⟩
    have hvsuffix : ¬ ".0".toList <:+ v := by
      rintro ⟨x, hx⟩
      obtain ⟨w, c, rfl⟩ := List.eq_nil_or_concat w |>.resolve_left hnil
      have hlast : c = '0' := by
        have := congrArg List.getLast? (hx.trans hv)
        simpa using this.symm
      have hspace := hw c (by simp)
      rw [hlast, zero_not_space] at hspace
      cases hspace
    rw [removeSuffix, if_neg hvsuffix, removeSuffix, if_neg hb, hv, List.filter_append, List.filter_append,
      filter_eq_nil_of_space ha, filter_eq_nil_of_space hw, List.nil_append, List.append_nil]

/-! ### The rows -/

theorem length_strftime {d : Date} (h : YearPadded py d) : (strftime py d).length ≤ fieldLimit := by
  rw [strftime_eq h]
  simp [twoDigits, fourDigits, fieldLimit]

theorem le_of_near {x : ℚ} {n k : ℕ} (h : Round.Near (100 * x) n) (hx : x < 2 ^ k) : n ≤ 100 * 2 ^ k := by
  have hround := Round.halfEven_eq_of_near h
  have hle : Round.halfEven (100 * x) ≤ (100 * 2 ^ k : ℤ) := by
    refine Round.halfEven_le ?_
    push_cast
    exact mul_le_mul_of_nonneg_left hx.le (by norm_num)
  rw [hround] at hle
  exact_mod_cast hle

theorem length_toDigits_le {n k : ℕ} (h : n ≤ 100 * 2 ^ k) (hk : 0 < k) : (Nat.toDigits 10 (n / 100)).length ≤ k := by
  have hpow : 2 ^ k < 10 ^ k := Nat.pow_lt_pow_left (by decide) (by omega)
  have hlt : n / 100 < 10 ^ k := Nat.lt_of_le_of_lt (Nat.div_le_of_le_mul h) hpow
  exact (Nat.length_toDigits_le_iff (by decide) hk).mpr hlt

theorem length_formatAmount {paise : ℕ} (h : Exact paise) : (formatAmount paise).length ≤ fieldLimit := by
  have hdigits := length_toDigits_le (le_of_near h.near h.finite) (by decide)
  rw [formatAmount_eq h, fixed, List.length_append]
  simp only [List.length_cons, List.length_nil, fieldLimit]
  omega

theorem Record.Kept.length {r : Record} (h : r.Kept py) : ∀ f ∈ r.line py, f.length ≤ fieldLimit := by
  intro f hf
  simp only [Record.line, List.mem_cons, List.not_mem_nil, or_false] at hf
  rcases hf with rfl | rfl | rfl | rfl | rfl
  · exact h.party
  · exact h.phone
  · exact h.invoice
  · exact length_strftime h.year
  · exact length_formatAmount h.amount

def Record.cells (py : Python) (r : Record) : List Cell := (r.line py).map .text

/-- **A row.** A record that is kept is read as it was. -/
theorem mapRow_cells {r : Record} (hr : r.Sound py) (hk : r.Kept py) (known : List (Text × Text)) (n : ℕ) :
    mapRow py known column (r.cells py) n = some ([r.row py], []) := by
  have hamount : (Cell.text (formatAmount r.amount)).amountPaise py = some (some r.amount) :=
    parseAmountPaise_formatAmount py hr.amount hk.amount
  have hdate : (Cell.text (strftime py r.due)).toDate py = some r.due := parseDate_strftime hk.year
  have hdue : dueDate py column (r.cells py) = some (some r.due) := by
    have hcell : cell column (r.cells py) .due = .text (strftime py r.due) := rfl
    rw [dueDate, hcell, hdate]
  have hphone : parsePhone py.toUnicode r.phone = phone py.toUnicode r.phone := parsePhone_eq_phone hk.phone_unpadded
  have hparty : strip py.toUnicode (cell column (r.cells py) .party).orEmpty = r.party := hr.party_trimmed
  have hinvoice : strip py.toUnicode (cell column (r.cells py) .invoice).orEmpty = r.invoice := hr.invoice_trimmed
  have hwritten : parsePhone py.toUnicode (cell column (r.cells py) .phone).orEmpty = phone py.toUnicode r.phone := hphone
  have hcellAmount : cell column (r.cells py) .amount = .text (formatAmount r.amount) := rfl
  have hgstin : py.upper (strip py.toUnicode (cell column (r.cells py) .gstin).orEmpty) = [] :=
    py.upper_ascii [] (by decide : Ascii [])
  unfold mapRow
  simp only [hparty, hinvoice, hwritten, hcellAmount, hamount, hdue, hgstin, Option.bind_eq_bind, Option.bind_some,
    if_neg hr.party, if_neg hr.phone, if_neg hr.invoice]
  rfl

theorem mapM_cells {records : List Record} (hsound : ∀ r ∈ records, r.Sound py) (hkept : ∀ r ∈ records, r.Kept py)
    (known : List (Text × Text)) (n : ℕ) :
    ((records.map (Record.cells py)).zipIdx n).mapM (fun row => mapRow py known column row.1 row.2) =
      some (records.map fun r => ([r.row py], [])) := by
  induction records generalizing n with
  | nil => rfl
  | cons r records ih =>
    obtain ⟨hr, hrest⟩ := List.forall_mem_cons.mp hsound
    obtain ⟨hk, hkrest⟩ := List.forall_mem_cons.mp hkept
    rw [List.map_cons, List.zipIdx_cons, List.mapM_cons, mapRow_cells hr hk, ih hrest hkrest]
    rfl

theorem readTables_toRowsCsv {records : List Record} (h : Survives py records) :
    readTables py dec "rows.csv".toList (toRowsCsv py records) =
      some (.ok [heading.map .text :: records.map (Record.cells py)]) := by
  have hname : py.lower "rows.csv".toList = "rows.csv".toList := py.lower_ascii _ (by decide : Ascii _)
  have hguess : guess py (sample (rowsText py records)) = ',' := guess_eq h.commas
  have hlength : ∀ row ∈ heading :: records.map (Record.line py), ∀ f ∈ row, f.length ≤ fieldLimit := by
    intro row hrow
    rcases List.mem_cons.mp hrow with rfl | hrow
    · decide
    · obtain ⟨r, hr, rfl⟩ := List.mem_map.mp hrow
      exact (h.kept r hr).length
  have hread : Csv.readAll ⟨',', fieldLimit⟩ (rowsText py records) = some (heading :: records.map (Record.line py)) :=
    Csv.readAll_writeAll (by decide) (by decide) (by decide) hlength
  unfold readTables
  rw [hname, if_neg (by decide)]
  simp only [decodeText_toRowsCsv, hguess, hread, Option.map_some, List.map_cons, List.map_map]
  rfl

/-- **Rows from the sandbox.** Of the sheet that the sandbox writes, the importer reads each record as one row, in
order, and skips nothing, if the records survive. -/
theorem mapSheet_toRowsCsv (py : Python) (dec : Decoders) (records : List Record) (hsound : ∀ r ∈ records, r.Sound py)
    (h : Survives py records) :
    mapSheet py dec "rows.csv".toList (toRowsCsv py records) [] = some (records.map (Record.row py), []) := by
  have hrows := mapM_cells hsound h.kept [] 2
  have hfst : (records.map fun r => (([r.row py], []) : Result)).flatMap Prod.fst = records.map (Record.row py) := by
    rw [List.flatMap_map]
    exact List.map_eq_flatMap.symm
  have hsnd : (records.map fun r => (([r.row py], []) : Result)).flatMap Prod.snd = [] := by
    rw [List.flatMap_map, List.flatMap_eq_nil_iff]
    exact fun _ _ => rfl
  unfold mapSheet
  rw [readTables_toRowsCsv h]
  simp only [List.findSome?_cons, findHeader_heading, Option.map_some, mapRows, Nat.zero_add, List.drop_succ_cons,
    List.drop_zero, hrows, hfst, hsnd]

/-! ### Two sheets -/

def noDecoders : Decoders where
  utf16 _ := []
  cp1252 _ := none
  replaced _ := []
  workbook _ _ := none

/-- A receivable of one rupee, due on the first of January 2024. -/
def oneRupee (party : Text) : Record where
  party
  phone := "98765 43210.0".toList
  invoice := "INV-1".toList
  due := ⟨2024, 1, 1, by decide⟩
  amount := 100

theorem oneRupee_exact : Exact 100 := exact_of_le (by decide) (by decide)

theorem oneRupee_sound {party : Text} (h : party ≠ [] ∧ strip ascii party = party) :
    (oneRupee party).Sound plainPython :=
  ⟨h.1, h.2, (by decide : "INV-1".toList ≠ []), (by decide : strip ascii "INV-1".toList = "INV-1".toList),
    (by decide : phone ascii "98765 43210.0".toList ≠ []), (by decide : 0 < 100)⟩

theorem rowsText_oneRupee (party : Text) : rowsText plainPython [oneRupee party] =
    Csv.writeAll ',' [heading, [party, "98765 43210.0".toList, "INV-1".toList, "01/01/2024".toList, "1.00".toList]] := by
  have hamount : formatAmount (oneRupee party).amount = "1.00".toList := formatAmount_eq oneRupee_exact
  have hdate : strftime plainPython ⟨2024, 1, 1, by decide⟩ = "01/01/2024".toList := by decide
  rw [rowsText, List.map_singleton, Record.line, hamount, oneRupee, hdate]

/-- A party with a comma, quotes and a line break in its name. -/
theorem mapSheet_quoted :
    mapSheet plainPython noDecoders "rows.csv".toList (toRowsCsv plainPython [oneRupee "Ravi, \"Sons\"\n& Co".toList]) [] =
      some ([(oneRupee "Ravi, \"Sons\"\n& Co".toList).row plainPython], []) := by
  refine mapSheet_toRowsCsv plainPython noDecoders [oneRupee "Ravi, \"Sons\"\n& Co".toList] ?_ ⟨?_, ?_⟩
  · intro r hr
    obtain rfl := List.mem_singleton.mp hr
    exact oneRupee_sound (by decide)
  · intro r hr
    obtain rfl := List.mem_singleton.mp hr
    refine ⟨by decide, by decide, by decide, ?_, Or.inr (by decide), oneRupee_exact⟩
    rintro ⟨b, w, heq, hne, hspace⟩
    obtain ⟨w, c, rfl⟩ := List.eq_nil_or_concat w |>.resolve_left hne
    have hlast : c = '0' := by
      have hback := congrArg List.getLast? heq
      rw [List.concat_eq_append, ← List.append_assoc, List.getLast?_concat] at hback
      exact (Option.some.inj hback).symm
    have hc := hspace c (by simp)
    rw [hlast] at hc
    exact absurd hc (by decide)
  · rw [rowsText_oneRupee]
    exact List.all_iff_forall_prop.mp (by decide)

theorem readTables_text {py : Python} {dec : Decoders} {filename : Text} {data : ByteArray}
    (h : ¬ ([".xlsx".toList, ".xlsm".toList, ".xls".toList].any fun suffix => decide (suffix <:+ py.lower filename))) :
    readTables py dec filename data =
      (Csv.readAll ⟨guess py (sample (decodeText dec data)), fieldLimit⟩ (decodeText dec data)).map fun rows =>
        .ok [rows.map (·.map .text)] := if_neg h

/-- The text of a receivable with a long name of semicolons, and its rows when they are split at semicolons. -/
def lostText : Text := Csv.writeAll ','
  [heading, ["A;B;C;D;E;F;G;H;I;J".toList, "98765 43210.0".toList, "INV-1".toList, "01/01/2024".toList, "1.00".toList]]

def lostRows : List (List Text) :=
  [["Party Name,Mobile Number,Invoice No,Due Date,Balance".toList],
    ["A".toList, "B".toList, "C".toList, "D".toList, "E".toList, "F".toList, "G".toList, "H".toList, "I".toList,
      "J,98765 43210.0,INV-1,01/01/2024,1.00".toList]]

theorem rowsText_lost : rowsText plainPython [oneRupee "A;B;C;D;E;F;G;H;I;J".toList] = lostText :=
  rowsText_oneRupee _

theorem guess_lostText : guess plainPython (sample lostText) = ';' := by decide

theorem readAll_lostText : Csv.readAll ⟨';', fieldLimit⟩ lostText = some lostRows := by decide

theorem findHeader_lostRows : findHeader plainPython (lostRows.map (·.map .text)) = none := by decide

theorem readTables_lost : readTables plainPython noDecoders "rows.csv".toList
    (toRowsCsv plainPython [oneRupee "A;B;C;D;E;F;G;H;I;J".toList]) = some (.ok [lostRows.map (·.map .text)]) := by
  rw [readTables_text (by decide), decodeText_toRowsCsv, rowsText_lost, guess_lostText, readAll_lostText,
    Option.map_some]

theorem mapSheet_noHeader {py : Python} {dec : Decoders} {filename : Text} {data : ByteArray}
    {table : List (List Cell)} (known : List (Text × Text)) (hread : readTables py dec filename data = some (.ok [table]))
    (hheader : findHeader py table = none) :
    mapSheet py dec filename data known = some ([], [noHeader [table]]) := by
  unfold mapSheet
  simp only [hread, List.findSome?_cons, List.findSome?_nil, hheader, Option.map_none]

/-- A party with semicolons in its name: the importer takes them for the delimiter, and finds no header. -/
theorem semicolons_lost : (oneRupee "A;B;C;D;E;F;G;H;I;J".toList).Sound plainPython ∧
    mapSheet plainPython noDecoders "rows.csv".toList (toRowsCsv plainPython [oneRupee "A;B;C;D;E;F;G;H;I;J".toList]) [] ≠
      some ([(oneRupee "A;B;C;D;E;F;G;H;I;J".toList).row plainPython], []) := by
  refine ⟨oneRupee_sound (by decide), ?_⟩
  rw [mapSheet_noHeader [] readTables_lost findHeader_lostRows]
  simp

end Smara.Ingest
