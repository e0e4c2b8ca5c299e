import Smara.Ingest.Dates
import Smara.Lib.Csv
import Smara.Lib.PyText

/-! # Sheets of receivables

A sheet is decoded, its delimiter is guessed from the first lines, its header is found by the synonyms of its columns,
and each row below the header is read or skipped with a reason.

* `Cell`, `Decoders`: what the readers of workbooks and the decoders give.
* `decodeText`, `guess`, `readTables`: the tables of a file.
* `mapHeaders`, `mapRow`, `mapSheet`: the rows of a file. -/

namespace Smara.Ingest

open Lib Lib.Lawful

inductive Cell
  | blank
  | text (t : Text)
  /-- a date, and how it is shown -/
  | date (d : Date) (shown : Text)
  /-- a number, how it is shown, and if it is zero -/
  | number (shown : Text) (zero : Bool)
  deriving DecidableEq

/-- `str(c)` -/
def Cell.shown : Cell → Text
  | .blank => "None".toList
  | .text t => t
  | .date _ shown => shown
  | .number shown _ => shown

/-- `str(c or "")` -/
def Cell.orEmpty : Cell → Text
  | .blank => []
  | .text t => t
  | .date _ shown => shown
  | .number shown zero => if zero then [] else shown

/-- `c in (None, "")` -/
def Cell.Empty (c : Cell) : Prop := c = .blank ∨ c = .text []

instance : DecidablePred Cell.Empty := fun _ => inferInstanceAs (Decidable (_ ∨ _))

/-- The decoders other than that of UTF-8, and the readers of workbooks. -/
structure Decoders where
  utf16 : ByteArray → Text
  cp1252 : ByteArray → Option Text
  /-- UTF-8 with replacements -/
  replaced : ByteArray → Text
  /-- the sheets of a workbook, the text of a `ValueError`, or nothing if another exception is raised -/
  workbook : Text → ByteArray → Option (Except Text (List (List (List Cell))))

variable (py : Python) (dec : Decoders)

/-! ### The text of a file -/

def decodeText (data : ByteArray) : Text :=
  if data.data.toList.take 2 ∈ [[0xff, 0xfe], [0xfe, 0xff]] then dec.utf16 data
  else match data.utf8Decode? with
    | some t => if t.toList.head? = some '\uFEFF' then t.toList.tail else t.toList
    | none => (dec.cp1252 data).getD (dec.replaced data)

/-- Where `splitlines` splits. -/
def lineBreaks : Text :=
  ['\n', '\r', '\u000b', '\u000c', '\u001c', '\u001d', '\u001e', '\u0085', '\u2028', '\u2029']

/-- The lines of a text, of which `line` is the start of the first. -/
def splitFrom (line : Text) : Text → List Text
  | [] => if line = [] then [] else [line]
  | '\r' :: '\n' :: s => line :: splitFrom [] s
  | c :: s => if c ∈ lineBreaks then line :: splitFrom [] s else splitFrom (line ++ [c]) s

def splitlines (s : Text) : List Text := splitFrom [] s

def sample (s : Text) : Text := ['\n'].intercalate ((splitlines s).take 20)

/-- `max(",;\t|", key=sample.count) if sample.strip() else ","` -/
def guess (sample : Text) : Char :=
  if strip py.toUnicode sample = [] then ','
  else [';', '\t', '|'].foldl (fun best c => if sample.count best < sample.count c then c else best) ','

/-- `csv.field_size_limit()` -/
def fieldLimit : ℕ := 131072

def readTables (filename : Text) (data : ByteArray) : Option (Except Text (List (List (List Cell)))) :=
  if [".xlsx".toList, ".xlsm".toList, ".xls".toList].any fun suffix => decide (suffix <:+ py.lower filename) then
    dec.workbook filename data
  else
    let text := decodeText dec data
    (Csv.readAll ⟨guess py (sample text), fieldLimit⟩ text).map fun rows => .ok [rows.map (·.map .text)]

/-! ### The header -/

inductive Column
  | party | phone | invoice | amount | due | billDate | gstin
  deriving DecidableEq

def synonyms : Column → List String
  | .party => ["party", "party name", "customer", "customer name", "particulars", "ledger", "ledger name", "debtor",
      "account name", "name", "party s name", "partys name", "particular", "customer s name", "पार्टी", "पार्टी का नाम",
      "ग्राहक", "नाम"]
  | .phone => ["mobile", "mobile no", "mobile number", "phone", "phone no", "contact", "contact no", "whatsapp",
      "whatsapp no", "mobile phone", "ledger mobile", "phone number", "mob", "mob no", "मोबाइल", "फोन", "फ़ोन"]
  | .invoice => ["invoice", "invoice no", "invoice number", "bill no", "bill number", "voucher no", "vch no", "ref no",
      "reference", "ref", "ref no", "bill ref", "बिल नं", "बिल नंबर"]
  | .amount => ["pending", "pending amount", "outstanding", "outstanding amount", "balance", "due amount",
      "closing balance", "amount due", "amount", "debit", "pending amt", "balance amount", "राशि", "बकाया"]
  | .due => ["due date", "due on", "due", "payment due", "देय तिथि", "due dt"]
  | .billDate => ["date", "invoice date", "bill date", "voucher date"]
  | .gstin => ["gstin", "gst no", "gst number", "gstin uin"]

/-- White space is one space. -/
def squeeze (after : Bool) : Text → Text
  | [] => []
  | c :: s =>
    if py.space c then if after then squeeze true s else ' ' :: squeeze true s
    else c :: squeeze false s

/-- A character of a heading: `[^\wऀ-ॿ ]|_` does not match. -/
def Heading (c : Char) : Prop := (py.word c ∨ 'ऀ' ≤ c ∧ c ≤ 'ॿ' ∨ c = ' ') ∧ c ≠ '_'

instance : DecidablePred (Heading py) := fun _ => inferInstanceAs (Decidable (_ ∧ _))

/-- `_norm` of the text of a cell -/
def norm (h : Text) : Text :=
  strip py.toUnicode (squeeze py false ((py.lower h).map fun c => if Heading py c then c else ' '))

/-- `map_headers`: the first synonym that is a heading. -/
def mapHeaders (header : List Cell) (column : Column) : Option ℕ :=
  let cols := header.map fun h => norm py h.orEmpty
  (synonyms column).findSome? fun name => if name.toList ∈ cols then some (cols.idxOf name.toList) else none

def findHeader (table : List (List Cell)) : Option (ℕ × (Column → Option ℕ)) :=
  (table.take 15).zipIdx.findSome? fun (header, i) =>
    if (mapHeaders py header .party).isSome ∧ (mapHeaders py header .amount).isSome then some (i, mapHeaders py header)
    else none

/-! ### The rows -/

structure SheetRow where
  party : Text
  phone : Text
  invoiceRef : Text
  amountPaise : ℕ
  dueDate : Date
  gstin : Option Text := none
  deriving DecidableEq

def cell (cols : Column → Option ℕ) (r : List Cell) (column : Column) : Cell :=
  match cols column with
  | some i => r.getD i .blank
  | none => .blank

/-- `parse_amount_paise` of a cell -/
def Cell.amountPaise : Cell → Option (Option ℕ)
  | .blank => some none
  | c => parseAmountPaise py c.shown

/-- `parse_date` of a cell -/
def Cell.toDate : Cell → Option Date
  | .date d _ => some d
  | c => parseDate py c.orEmpty

/-- The due date of a row, or thirty days after its bill; none if an exception is raised. -/
def dueDate (cols : Column → Option ℕ) (r : List Cell) : Option (Option Date) :=
  match (cell cols r .due).toDate py with
  | some due => some (some due)
  | none =>
    match (cell cols r .billDate).toDate py with
    | some billed => (billed.addDays 30).map some
    | none => some none

def knownPhone (known : List (Text × Text)) (party : Text) : Text :=
  ((known.reverse.find? fun k => py.lower (strip py.toUnicode k.1) = py.lower party).map Prod.snd).getD []

abbrev Result := List SheetRow × List Text

/-- `sys.get_int_max_str_digits()` -/
def maxStrDigits : ℕ := 4300

/-- `str(n)`; none if an exception is raised. -/
def shownInt (n : ℕ) : Option Text :=
  if maxStrDigits < (Nat.toDigits 10 n).length then none else some (Nat.toDigits 10 n)

/-- A row, of number `n`; none if an exception is raised. -/
def mapRow (known : List (Text × Text)) (cols : Column → Option ℕ) (r : List Cell) (n : ℕ) : Option Result := do
  let party := strip py.toUnicode (cell cols r .party).orEmpty
  match ← (cell cols r .amount).amountPaise py with
  | none => some (noParty r n)
  | some amount =>
    if party = [] then some (noParty r n)
    else
      let written := parsePhone py.toUnicode (cell cols r .phone).orEmpty
      let phone := if written = [] then parsePhone py.toUnicode (knownPhone py known party) else written
      match ← dueDate py cols r with
      | none => some ([], [missing party n (phone = [])])
      | some due =>
        if phone = [] then some ([], [missing party n true])
        else
          let invoice := strip py.toUnicode (cell cols r .invoice).orEmpty
          let ref ← if invoice = [] then
              (shownInt amount).map fun amount => party.take 12 ++ '-' :: (due.isoformat ++ '-' :: amount)
            else some invoice
          let gstin := py.upper (strip py.toUnicode (cell cols r .gstin).orEmpty)
          some ([⟨party, phone, ref, amount, due, if gstin = [] then none else some gstin⟩], [])
where
  /-- A row without a party or an amount is skipped, unless it is blank or a total. -/
  noParty (r : List Cell) (n : ℕ) : Result :=
    let total := r.any fun c => decide (py.lower (strip py.toUnicode c.orEmpty) ∈
      ["total".toList, "grand total".toList, "totals".toList])
    if (r.any fun c => decide (¬ c.Empty)) ∧ ¬ total then
      ([], ["row ".toList ++ Nat.toDigits 10 n ++ ": no party/amount".toList])
    else ([], [])
  missing (party : Text) (n : ℕ) (phone : Bool) : Text :=
    "row ".toList ++ Nat.toDigits 10 n ++ " (".toList ++ party ++ "): missing ".toList ++
      if phone then "phone".toList else "due date".toList

/-- The reason of a file without a header. -/
def noHeader (tables : List (List (List Cell))) : Text :=
  let seen := (tables.flatMap (·.take 15)).find? fun r => 2 ≤ (r.filter fun c => ¬ c.Empty).length
  let hint := match seen with
    | some r => " The columns I can see: ".toList ++
        (", ".toList.intercalate ((r.filter fun c => ¬ c.Empty).map Cell.shown)).take 200 ++ ".".toList
    | none => []
  "could not find a header row with a party/customer column and an amount/pending column.".toList ++ hint

/-- The rows of a table below its header. -/
def mapRows (known : List (Text × Text)) (cols : Column → Option ℕ) (rows : List (List Cell × ℕ)) : Option Result :=
  (rows.mapM fun row => mapRow py known cols row.1 row.2).map fun (results : List Result) =>
    (results.flatMap Prod.fst, results.flatMap Prod.snd)

/-- **`map_sheet`**; none if an exception is raised. -/
def mapSheet (filename : Text) (data : ByteArray) (known : List (Text × Text)) : Option Result :=
  match readTables py dec filename data with
  | none => some ([], ["the file could not be opened; it may be damaged or password protected".toList])
  | some (.error e) => some ([], [e])
  | some (.ok tables) =>
    match tables.findSome? fun table => (findHeader py table).map fun found => (table, found) with
    | none => some ([], [noHeader tables])
    | some (table, i, cols) => mapRows py known cols ((table.drop (i + 1)).zipIdx (i + 2))

end Smara.Ingest
