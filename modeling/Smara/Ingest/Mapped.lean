import Smara.Ingest.Numerals
import Smara.Ingest.Rows
import Smara.Lib.Each

/-! # What becomes of the rows of a sheet

Each row below the header is to be a row of the import or to be skipped with a reason. An exception in one row loses
all of them.

* `Accounted`: what is to become of a row.
* `RowAborts`: the rows that raise an exception.
* `mapSheet_iff`: the rows of a sheet are accounted for exactly if none raises. -/

namespace Smara.Ingest

open Lib.Each Lib.Round

variable (py : Python)

/-! ### What is to hold -/

/-- `c in (None, "")` of every cell -/
def Blank (r : List Cell) : Prop := ∀ c ∈ r, c.Empty

def TotalRow (r : List Cell) : Prop :=
  ∃ c ∈ r, py.lower (strip py.toUnicode c.orEmpty) ∈ ["total".toList, "grand total".toList, "totals".toList]

/-- The amount is positive, and the phone has eleven to fifteen digits. The due date is a date by its type. -/
structure SheetRow.Good (x : SheetRow) : Prop where
  amount : 0 < x.amountPaise
  phone : 11 ≤ x.phone.length ∧ x.phone.length ≤ 15 ∧ ∀ c ∈ x.phone, py.decimal c

/-- **The row is accounted for**: it is one row of the import, with its party, or one reason, with its number. -/
def Accounted (cols : Column → Option ℕ) (r : List Cell) (n : ℕ) (out : Result) : Prop :=
  (∃ x, out = ([x], []) ∧ x.Good py ∧ x.party = strip py.toUnicode (cell cols r .party).orEmpty) ∨
    ∃ reason, out = ([], [reason]) ∧ "row ".toList ++ Nat.toDigits 10 n <+: reason

/-- What becomes of the rows, in their order. -/
def Accounts (cols : Column → Option ℕ) (rows : List (List Cell × ℕ)) (result : Option Result) : Prop :=
  ∃ outs : List Result, result = some (outs.flatMap Prod.fst, outs.flatMap Prod.snd) ∧
    List.Forall₂ (fun row out => (¬ Blank row.1 → ¬ TotalRow py row.1 → Accounted py cols row.1 row.2 out) ∧
      out.1.length + out.2.length ≤ 1) rows outs

/-! ### Exceptions -/

def AmountAborts (c : Cell) : Prop :=
  c ≠ .blank ∧ c.shown ≠ [] ∧ ∃ l ∈ literal py (clean py 0 none c.shown), l.Aborts

def Date.Late (d : Date) : Prop := d.year = 9999 ∧ d.month = 12 ∧ 1 < d.day

def Complete (cols : Column → Option ℕ) (r : List Cell) (amount : ℕ) : Prop :=
  strip py.toUnicode (cell cols r .party).orEmpty ≠ [] ∧ (cell cols r .amount).amountPaise py = some (some amount)

def DueAborts (cols : Column → Option ℕ) (r : List Cell) : Prop :=
  (cell cols r .due).toDate py = none ∧ ∃ billed ∈ (cell cols r .billDate).toDate py, billed.Late

def rowPhone (known : List (Text × Text)) (cols : Column → Option ℕ) (r : List Cell) : Text :=
  let written := parsePhone py.toUnicode (cell cols r .phone).orEmpty
  if written = [] then
    parsePhone py.toUnicode (knownPhone py known (strip py.toUnicode (cell cols r .party).orEmpty))
  else written

/-- A row without an invoice has an amount that is too long to be shown. -/
def RefAborts (known : List (Text × Text)) (cols : Column → Option ℕ) (r : List Cell) (amount : ℕ) : Prop :=
  rowPhone py known cols r ≠ [] ∧ strip py.toUnicode (cell cols r .invoice).orEmpty = [] ∧
    (∃ due, dueDate py cols r = some (some due)) ∧ maxStrDigits < (Nat.toDigits 10 amount).length

/-- **The rows that raise an exception.** -/
def RowAborts (known : List (Text × Text)) (cols : Column → Option ℕ) (r : List Cell) : Prop :=
  AmountAborts py (cell cols r .amount) ∨
    ∃ amount, Complete py cols r amount ∧ (DueAborts py cols r ∨ RefAborts py known cols r amount)

/-! ### One row -/

variable {py : Platform} {known : List (Text × Text)} {cols : Column → Option ℕ} {r : List Cell} {n : ℕ}

/-- **The amount of a cell** raises exactly if its literal does. -/
theorem amountPaise_eq_none_iff {c : Cell} : c.amountPaise py.toPython = none ↔ AmountAborts py.toPython c := by
  unfold AmountAborts
  have hread : ∀ v : Text, parseAmountPaise py.toPython v = none ↔
      v ≠ [] ∧ ∃ l ∈ literal py.toPython (clean py.toPython 0 none v), l.Aborts := by
    intro v
    unfold parseAmountPaise
    split_ifs with hempty
    · simp [hempty]
    · rw [Option.map_eq_none_iff, py.decimalPaise, readPaise]
      cases literal py.toPython (clean py.toPython 0 none v) with
      | none => simp
      | some l =>
        by_cases hl : l.Aborts
        · simp [hl, hempty]
        · simp [hl]
  cases c with
  | blank => simp [Cell.amountPaise]
  | _ => simp [Cell.amountPaise, hread]

theorem amountPaise_pos {py : Python} {c : Cell} {amount : ℕ} (h : c.amountPaise py = some (some amount)) :
    0 < amount := by
  have hread : ∀ v : Text, parseAmountPaise py v = some (some amount) → 0 < amount := by
    intro v hv
    unfold parseAmountPaise at hv
    split_ifs at hv
    · cases hv
    · obtain ⟨paise, -, heq⟩ := Option.map_eq_some_iff.mp hv
      obtain ⟨p, hp, rfl⟩ := Option.map_eq_some_iff.mp heq
      have hpos := (Option.filter_eq_some_iff.mp hp).2
      simp only [decide_eq_true_eq] at hpos
      omega
  cases c with
  | blank => cases h
  | _ => exact hread _ h

/-- **Thirty days later** there is a date, but after the first day of the last month. -/
theorem addDays_eq_none_iff {k : ℕ} (hk : k ≤ 30) {d : Date} :
    d.addDays k = none ↔ d.year = 9999 ∧ d.month = 12 ∧ 31 < d.day + k := by
  induction k generalizing d with
  | zero =>
    obtain ⟨-, -, -, hday⟩ := d.valid
    simp only [Date.addDays, reduceCtorEq, false_iff, not_and]
    rintro hyear hmonth
    rw [hyear, hmonth] at hday
    have : daysIn 9999 12 = 31 := by decide
    omega
  | succ k ih =>
    have hvalid := d.valid
    have hle : daysIn d.year d.month ≤ 31 := by
      unfold daysIn
      split_ifs
      all_goals omega
    obtain ⟨⟨hy₁, hy₂⟩, ⟨hm₁, hm₂⟩, hd₁, hd₂⟩ := hvalid
    rw [Date.addDays, Date.next]
    by_cases hday : d.day < daysIn d.year d.month
    · have hnext : OnCalendar d.year d.month (d.day + 1) := ⟨⟨hy₁, hy₂⟩, ⟨hm₁, hm₂⟩, by omega, by omega⟩
      rw [if_pos hday, Date.mk?, dif_pos hnext, Option.bind_some, ih (by omega)]
      dsimp only
      omega
    · rw [if_neg hday]
      by_cases hmonth : d.month < 12
      · have hfirst : 1 ≤ daysIn d.year (d.month + 1) := by
          unfold daysIn
          split_ifs
          all_goals omega
        have hnext : OnCalendar d.year (d.month + 1) 1 := ⟨⟨hy₁, hy₂⟩, ⟨by omega, by omega⟩, le_refl 1, hfirst⟩
        rw [if_pos hmonth, Date.mk?, dif_pos hnext, Option.bind_some, ih (by omega)]
        dsimp only
        omega
      · have hdecember : d.month = 12 := by omega
        have hlast : daysIn d.year 12 = 31 := by
          simp [daysIn]
        rw [hdecember, hlast] at hday
        rw [if_neg hmonth, Date.mk?]
        by_cases hyear : d.year < 9999
        · have hnext : OnCalendar (d.year + 1) 1 1 := by
            refine ⟨⟨by omega, by omega⟩, ⟨le_refl 1, by omega⟩, le_refl 1, ?_⟩
            simp [daysIn]
          rw [dif_pos hnext, Option.bind_some, ih (by omega)]
          dsimp only
          omega
        · have hnone : ¬ OnCalendar (d.year + 1) 1 1 := fun h => by
            have := h.1.2
            omega
          rw [dif_neg hnone, Option.bind_none]
          refine iff_of_true rfl ⟨by omega, hdecember, by omega⟩

theorem dueDate_eq_none_iff {py : Python} : dueDate py cols r = none ↔ DueAborts py cols r := by
  unfold dueDate DueAborts
  cases hdue : (cell cols r .due).toDate py with
  | some due => simp
  | none =>
    cases hbilled : (cell cols r .billDate).toDate py with
    | none => simp
    | some billed =>
      have := addDays_eq_none_iff (le_refl 30) (d := billed)
      simp only [Option.map_eq_none_iff, this, Option.mem_def, Option.some.injEq, exists_eq_left', true_and, Date.Late]
      omega

theorem parsePhone_digits {py : Python} {v : Text} (h : parsePhone py.toUnicode v ≠ []) :
    11 ≤ (parsePhone py.toUnicode v).length ∧ (parsePhone py.toUnicode v).length ≤ 15 ∧
      ∀ c ∈ parsePhone py.toUnicode v, py.decimal c := by
  unfold parsePhone at h ⊢
  have hall : ∀ c ∈ (removeSuffix ".0".toList v).filter py.decimal, py.decimal c := fun c hc => (List.mem_filter.mp hc).2
  generalize (removeSuffix ".0".toList v).filter py.decimal = ds at h hall
  have hcode : ∀ c ∈ if ds.length = 10 then "91".toList ++ ds else ds, py.decimal c := by
    split_ifs
    · intro c hc
      rcases List.mem_append.mp hc with hc | hc
      · exact decimal_of_isDigit (List.all_eq_true.mp (by decide : "91".toList.all Char.isDigit) c hc)
      · exact hall c hc
    · exact hall
  unfold withCode at h ⊢
  dsimp only at h ⊢
  split_ifs at h ⊢ with hten hlength
  all_goals first | exact absurd rfl h | skip
  · rw [if_pos hten] at hcode
    exact ⟨hlength.1, hlength.2, hcode⟩
  · rw [if_neg hten] at hcode
    exact ⟨by omega, by omega, hcode⟩

theorem noParty_spec {py : Python} : (¬ Blank r → ¬ TotalRow py r → Accounted py cols r n (mapRow.noParty py r n)) ∧
    (mapRow.noParty py r n).1.length + (mapRow.noParty py r n).2.length ≤ 1 := by
  unfold mapRow.noParty
  dsimp only
  constructor
  · intro hblank htotal
    rw [if_pos]
    · refine Or.inr ⟨_, rfl, ?_⟩
      rw [List.append_assoc]
      exact ⟨_, rfl⟩
    · constructor
      · simpa [Blank] using hblank
      · simpa [TotalRow] using htotal
  · split_ifs
    · simp
    · simp

theorem missing_spec {py : Python} {party : Text} {phone : Bool} :
    Accounted py cols r n ([], [mapRow.missing party n phone]) := by
  refine Or.inr ⟨_, rfl, ?_⟩
  unfold mapRow.missing
  simp only [List.append_assoc]
  rw [← List.append_assoc]
  exact ⟨_, rfl⟩

/-- **A row** raises exactly if it has to, and is accounted for otherwise. -/
theorem mapRow_spec : (mapRow py.toPython known cols r n = none ↔ RowAborts py.toPython known cols r) ∧
    ∀ out, mapRow py.toPython known cols r n = some out →
      (¬ Blank r → ¬ TotalRow py.toPython r → Accounted py.toPython cols r n out) ∧ out.1.length + out.2.length ≤ 1 := by
  have hskipped : ∀ out, some (mapRow.noParty py.toPython r n) = some out →
      (¬ Blank r → ¬ TotalRow py.toPython r → Accounted py.toPython cols r n out) ∧ out.1.length + out.2.length ≤ 1 := by
    rintro out heq
    obtain rfl := Option.some.inj heq
    exact noParty_spec
  have hmissing : ∀ party phone out, some (([], [mapRow.missing party n phone]) : Result) = some out →
      (¬ Blank r → ¬ TotalRow py.toPython r → Accounted py.toPython cols r n out) ∧ out.1.length + out.2.length ≤ 1 := by
    rintro party phone out heq
    obtain rfl := Option.some.inj heq
    exact ⟨fun _ _ => missing_spec, by simp⟩
  unfold mapRow RowAborts
  rw [← amountPaise_eq_none_iff]
  dsimp only
  cases hamount : (cell cols r .amount).amountPaise py.toPython with
  | none => simp
  | some read =>
    rw [Option.bind_eq_bind, Option.bind_some]
    cases read with
    | none =>
      refine ⟨iff_of_false (by simp) ?_, hskipped⟩
      rintro (habsurd | ⟨amount, ⟨-, hread⟩, -⟩)
      · cases habsurd
      · rw [hamount] at hread
        cases hread
    | some amount =>
      dsimp only
      by_cases hparty : strip py.toUnicode (cell cols r .party).orEmpty = []
      · rw [if_pos hparty]
        refine ⟨iff_of_false (by simp) ?_, hskipped⟩
        rintro (habsurd | ⟨amount', ⟨hnot, -⟩, -⟩)
        · cases habsurd
        · exact hnot hparty
      · have hcomplete : ∀ amount', Complete py.toPython cols r amount' ↔ amount' = amount := by
          intro amount'
          rw [Complete, hamount, and_iff_right hparty, Option.some_inj, Option.some_inj, eq_comm]
        rw [if_neg hparty, ← dueDate_eq_none_iff]
        simp only [hcomplete, exists_eq_left, reduceCtorEq, false_or]
        cases hdue : dueDate py.toPython cols r with
        | none => simp
        | some dated =>
          rw [Option.bind_eq_bind, Option.bind_some]
          cases dated with
          | none =>
            refine ⟨iff_of_false (by simp) ?_, hmissing _ _⟩
            rintro (habsurd | ⟨-, -, ⟨due, hsome⟩, -⟩)
            · cases habsurd
            · rw [hdue] at hsome
              cases hsome
          | some due =>
            have hphone : (if parsePhone py.toUnicode (cell cols r .phone).orEmpty = [] then
                parsePhone py.toUnicode (knownPhone py.toPython known (strip py.toUnicode (cell cols r .party).orEmpty))
              else parsePhone py.toUnicode (cell cols r .phone).orEmpty) = rowPhone py.toPython known cols r := rfl
            rw [hphone]
            dsimp only
            by_cases hnone : rowPhone py.toPython known cols r = []
            · rw [if_pos hnone]
              refine ⟨iff_of_false (by simp) ?_, hmissing _ _⟩
              rintro (habsurd | ⟨hnot, -⟩)
              · cases habsurd
              · exact hnot hnone
            · rw [if_neg hnone]
              have hgood : 11 ≤ (rowPhone py.toPython known cols r).length ∧
                  (rowPhone py.toPython known cols r).length ≤ 15 ∧ ∀ c ∈ rowPhone py.toPython known cols r, py.decimal c := by
                unfold rowPhone at hnone ⊢
                dsimp only at hnone ⊢
                split_ifs at hnone ⊢
                · exact parsePhone_digits hnone
                · exact parsePhone_digits hnone
              have hrow : ∀ ref gstin out, some (([⟨strip py.toUnicode (cell cols r .party).orEmpty,
                  rowPhone py.toPython known cols r, ref, amount, due, gstin⟩], []) : Result) = some out →
                  (¬ Blank r → ¬ TotalRow py.toPython r → Accounted py.toPython cols r n out) ∧
                    out.1.length + out.2.length ≤ 1 := by
                rintro ref gstin out heq
                obtain rfl := Option.some.inj heq
                exact ⟨fun _ _ => Or.inl ⟨_, rfl, ⟨amountPaise_pos hamount, hgood⟩, rfl⟩, by simp⟩
              by_cases hinvoice : strip py.toUnicode (cell cols r .invoice).orEmpty = []
              · rw [if_pos hinvoice, shownInt]
                by_cases hlong : maxStrDigits < (Nat.toDigits 10 amount).length
                · rw [if_pos hlong]
                  exact ⟨iff_of_true rfl (Or.inr ⟨hnone, hinvoice, ⟨due, hdue⟩, hlong⟩), nofun⟩
                · rw [if_neg hlong]
                  refine ⟨iff_of_false nofun ?_, hrow _ _⟩
                  rintro (habsurd | ⟨-, -, -, hlong'⟩)
                  · cases habsurd
                  · exact hlong hlong'
              · rw [if_neg hinvoice]
                refine ⟨iff_of_false nofun ?_, hrow _ _⟩
                rintro (habsurd | ⟨-, hempty, -⟩)
                · cases habsurd
                · exact hinvoice hempty

/-! ### A sheet -/

theorem mapRows_iff {rows : List (List Cell × ℕ)} :
    Accounts py.toPython cols rows (mapRows py.toPython known cols rows) ↔
      ∀ row ∈ rows, ¬ RowAborts py.toPython known cols row.1 := by
  unfold mapRows
  constructor
  · rintro ⟨outs, hresult, -⟩ row hrow haborts
    obtain ⟨results, hresults, -⟩ := Option.map_eq_some_iff.mp hresult
    obtain ⟨out, -, hout⟩ := mem_mapM hresults hrow
    rw [mapRow_spec.1.mpr haborts] at hout
    cases hout
  · intro h
    have hsome : ∀ row ∈ rows, ∃ out, mapRow py.toPython known cols row.1 row.2 = some out := by
      intro row hrow
      refine Option.ne_none_iff_exists'.mp fun hnone => h row hrow (mapRow_spec.1.mp hnone)
    obtain ⟨outs, houts⟩ := mapM_isSome hsome
    refine ⟨outs, by rw [houts]; rfl, ?_⟩
    exact (mapM_eq_some_iff.mp houts).imp fun row out hout => mapRow_spec.2 out hout

theorem mapSheet_of_header {py : Python} {dec : Decoders} {filename : Text} {data : ByteArray}
    {tables : List (List (List Cell))} (htables : readTables py dec filename data = some (.ok tables))
    {table : List (List Cell)} {i : ℕ} (hheader : (tables.findSome? fun table =>
      (findHeader py table).map fun found => (table, found)) = some (table, i, cols)) :
    mapSheet py dec filename data known = mapRows py known cols ((table.drop (i + 1)).zipIdx (i + 2)) := by
  unfold mapSheet
  rw [htables]
  dsimp only
  rw [hheader]

/-- **When a sheet is mapped.** If a header is found, the importer returns and accounts for each row below it, exactly
if no row raises an exception. -/
theorem mapSheet_iff (py : Platform) (dec : Decoders) (filename : Text) (data : ByteArray)
    (known : List (Text × Text)) (tables : List (List (List Cell)))
    (htables : readTables py.toPython dec filename data = some (.ok tables)) (table : List (List Cell)) (i : ℕ)
    (cols : Column → Option ℕ) (hheader : (tables.findSome? fun table =>
      (findHeader py.toPython table).map fun found => (table, found)) = some (table, i, cols)) :
    Accounts py.toPython cols ((table.drop (i + 1)).zipIdx (i + 2)) (mapSheet py.toPython dec filename data known) ↔
      ∀ r ∈ table.drop (i + 1), ¬ RowAborts py.toPython known cols r := by
  rw [mapSheet_of_header htables hheader, mapRows_iff]
  have hrows : ((table.drop (i + 1)).zipIdx (i + 2)).map Prod.fst = table.drop (i + 1) := List.zipIdx_map_fst ..
  constructor
  · intro h r hr
    rw [← hrows] at hr
    obtain ⟨row, hrow, rfl⟩ := List.mem_map.mp hr
    exact h row hrow
  · intro h row hrow
    exact h row.1 (hrows ▸ List.mem_map_of_mem hrow)

/-! ### Two sheets -/

theorem findHeader_first {py : Python} {header : List Cell} {rows : List (List Cell)}
    (h : (mapHeaders py header .party).isSome ∧ (mapHeaders py header .amount).isSome) :
    findHeader py (header :: rows) = some (0, mapHeaders py header) := by
  unfold findHeader
  rw [List.take_succ_cons, List.zipIdx_cons, List.findSome?_cons]
  dsimp only
  rw [if_pos h]

def workbook (table : List (List Cell)) : Decoders where
  utf16 _ := []
  cp1252 _ := none
  replaced _ := []
  workbook _ _ := some (.ok [table])

def columns : List Cell :=
  ["Party", "Amount", "Mobile", "Due Date", "Invoice"].map fun name => .text name.toList

theorem columns_found : (mapHeaders plainPython.platform.toPython columns .party).isSome ∧
    (mapHeaders plainPython.platform.toPython columns .amount).isSome := by decide

theorem newYear_valid : OnCalendar 2024 1 1 := by decide

def owing (amount : String) : List Cell :=
  [.text "Ravi Traders".toList, .text amount.toList, .text "9876543210".toList,
    .date ⟨2024, 1, 1, newYear_valid⟩ "2024-01-01 00:00:00".toList, .text "INV-1".toList]

theorem header_found (rows : List (List Cell)) : ([columns :: rows].findSome? fun table =>
    (findHeader plainPython.platform.toPython table).map fun found => (table, found)) =
      some (columns :: rows, 0, mapHeaders plainPython.platform.toPython columns) := by
  rw [List.findSome?_cons, findHeader_first columns_found, Option.map_some]

theorem workbook_read (table : List (List Cell)) : readTables plainPython.platform.toPython (workbook table)
    "dues.xlsx".toList ByteArray.empty = some (.ok [table]) := by
  unfold readTables
  rw [if_pos (by decide)]
  rfl

/-- Five hundred rupees. -/
theorem mapSheet_iff_owing : Accounts plainPython.platform.toPython (mapHeaders plainPython.platform.toPython columns)
    [(owing "500", 2)] (mapSheet plainPython.platform.toPython (workbook [columns, owing "500"]) "dues.xlsx".toList
      ByteArray.empty []) := by
  refine (mapSheet_iff plainPython.platform (workbook [columns, owing "500"]) "dues.xlsx".toList ByteArray.empty []
    [[columns, owing "500"]] (workbook_read _) [columns, owing "500"] 0
      (mapHeaders plainPython.platform.toPython columns) (header_found _)).mpr ?_
  rintro r hr (⟨-, -, l, hl, haborts⟩ | ⟨amount, -, hdue | href⟩)
  all_goals obtain rfl := List.mem_singleton.mp hr
  · have hliteral : literal plainPython.platform.toPython (clean plainPython.platform.toPython 0 none "500".toList) =
        some (.finite false 500 (-(0 : ℕ))) := literal_plain (by decide)
    obtain rfl := Option.some.inj (hliteral.symm.trans hl)
    have hlt : 500 < 10 ^ 1030 := Nat.lt_of_lt_of_le (by norm_num : 500 < 10 ^ 3) (Nat.pow_le_pow_right (by decide) (by decide))
    exact not_overflows (significant_of_lt (by norm_num) (by norm_num)) hlt haborts
  · exact absurd hdue.1 (by decide)
  · exact absurd href.2.1 (by decide)

/-- A cell that says that it is no number loses the sheet. -/
theorem nan_raises : ¬ ∀ (py : Platform) (dec : Decoders) (filename : Text) (data : ByteArray)
    (known : List (Text × Text)) (tables : List (List (List Cell))),
    readTables py.toPython dec filename data = some (.ok tables) →
      ∀ (table : List (List Cell)) (i : ℕ) (cols : Column → Option ℕ), (tables.findSome? fun table =>
        (findHeader py.toPython table).map fun found => (table, found)) = some (table, i, cols) →
          Accounts py.toPython cols ((table.drop (i + 1)).zipIdx (i + 2))
            (mapSheet py.toPython dec filename data known) := by
  intro h
  have hall := h plainPython.platform (workbook [columns, owing "NaN"]) "dues.xlsx".toList ByteArray.empty []
    [[columns, owing "NaN"]] (workbook_read _) _ _ _ (header_found _)
  rw [mapSheet_of_header (workbook_read _) (header_found _)] at hall
  refine mapRows_iff.mp hall (owing "NaN", 2) (List.mem_singleton_self _) (Or.inl ⟨by decide, by decide, .nan false, ?_, ?_⟩)
  · show literal plainPython.platform.toPython (clean plainPython.platform.toPython 0 none "NaN".toList) = _
    decide
  · exact Bool.false_ne_true

end Smara.Ingest
