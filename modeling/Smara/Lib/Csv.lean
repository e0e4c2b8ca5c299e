import Smara.Lib.Acceptor

/-! # Comma-separated values

A table is written as a text, with the fields quoted that need it, and read line by line. A field that is read is
limited in its length.

* `writeAll`: the text of a table; `readAll`: the table of a text, if it can be read.
* `readAll_writeAll`: a table whose fields are not too long is read as it was written, with the same delimiter. -/

namespace Smara.Lib.Csv

open Lib.Acceptor

abbrev Text := List Char

/-! ### Writing -/

def NeedsQuotes (delimiter : Char) (f : Text) : Prop := ∃ c ∈ f, c = delimiter ∨ c = '"' ∨ c = '\r' ∨ c = '\n'

instance (delimiter : Char) : DecidablePred (NeedsQuotes delimiter) := fun f => List.decidableBEx _ f

def escape (f : Text) : Text := f.flatMap fun c => if c = '"' then ['"', '"'] else [c]

def writeField (delimiter : Char) (f : Text) : Text :=
  if NeedsQuotes delimiter f then '"' :: (escape f ++ ['"']) else f

def joinFields (delimiter : Char) : List Text → Text
  | [] => []
  | [f] => writeField delimiter f
  | f :: fs => writeField delimiter f ++ delimiter :: joinFields delimiter fs

theorem joinFields_nil {delimiter : Char} : joinFields delimiter [] = [] := rfl

theorem joinFields_singleton {delimiter : Char} {f : Text} : joinFields delimiter [f] = writeField delimiter f := rfl

theorem joinFields_cons_cons {delimiter : Char} {f g : Text} {fs : List Text} :
    joinFields delimiter (f :: g :: fs) = writeField delimiter f ++ delimiter :: joinFields delimiter (g :: fs) := rfl

def writeRow (delimiter : Char) (row : List Text) : Text :=
  (if row = [[]] then ['"', '"'] else joinFields delimiter row) ++ ['\r', '\n']

def writeAll (delimiter : Char) (rows : List (List Text)) : Text := rows.flatMap (writeRow delimiter)

/-! ### Reading -/

inductive Mode
  | record | field | plain | quoted | quote | newline
  deriving DecidableEq

structure Reader where
  mode : Mode := .record
  /-- the field that is being read -/
  field : Text := []
  /-- the fields of the row before it -/
  fields : List Text := []
  rows : List (List Text) := []

/-- The format: the delimiter, and the length that no field exceeds. -/
structure Format where
  delimiter : Char
  limit : ℕ

/-- A character of a field, which must not be too long. -/
def Reader.add (fmt : Format) (mode : Mode) (c : Char) (r : Reader) : Option Reader :=
  if r.field.length < fmt.limit then some { r with mode, field := r.field ++ [c] } else none

def Reader.save (mode : Mode) (r : Reader) : Reader := { r with mode, field := [], fields := r.fields ++ [r.field] }

def startField (fmt : Format) (r : Reader) (c : Char) : Option Reader :=
  if c = '\n' ∨ c = '\r' then some (r.save .newline)
  else if c = '"' then some { r with mode := .quoted }
  else if c = fmt.delimiter then some (r.save .field)
  else r.add fmt .plain c

/-- A character; none if the text cannot be read. -/
def readChar (fmt : Format) (r : Reader) (c : Char) : Option Reader :=
  match r.mode with
  | .record => if c = '\n' ∨ c = '\r' then some { r with mode := .newline } else startField fmt r c
  | .field => startField fmt r c
  | .plain =>
    if c = '\n' ∨ c = '\r' then some (r.save .newline)
    else if c = fmt.delimiter then some (r.save .field)
    else r.add fmt .plain c
  | .quoted => if c = '"' then some { r with mode := .quote } else r.add fmt .quoted c
  | .quote =>
    if c = '"' then r.add fmt .quoted c
    else if c = fmt.delimiter then some (r.save .field)
    else if c = '\n' ∨ c = '\r' then some (r.save .newline)
    else r.add fmt .plain c
  | .newline => if c = '\n' ∨ c = '\r' then some r else none

def Reader.emit (r : Reader) : Reader := { r with mode := .record, fields := [], rows := r.rows ++ [r.fields] }

def endLine (r : Reader) : Reader :=
  match r.mode with
  | .record | .newline => r.emit
  | .field | .plain | .quote => (r.save .record).emit
  | .quoted => r

def feed (fmt : Format) (r : Reader) (c : Char) : Option Reader :=
  (readChar fmt r c).map fun r => if c = '\n' then endLine r else r

def finish (r : Reader) : List (List Text) :=
  if r.field ≠ [] ∨ r.mode = .quoted then (r.save .record).emit.rows else r.rows

/-- **The rows of a text.** -/
def readAll (fmt : Format) (text : Text) : Option (List (List Text)) :=
  (scan (feed fmt) {} text).map fun r => finish (if text.getLast?.all (· = '\n') then r else endLine r)

/-! ### What is read of what was written -/

variable {fmt : Format} {r : Reader} {f : Text}

def Ordinary (delimiter c : Char) : Prop := c ≠ delimiter ∧ c ≠ '"' ∧ c ≠ '\r' ∧ c ≠ '\n'

theorem ordinary_of_not_needsQuotes {delimiter : Char} (h : ¬ NeedsQuotes delimiter f) :
    ∀ c ∈ f, Ordinary delimiter c := by
  intro c hc
  refine ⟨?_, ?_, ?_, ?_⟩
  all_goals
    rintro rfl
    exact h ⟨_, hc, by simp⟩

theorem scan_plain (hf : ∀ c ∈ f, Ordinary fmt.delimiter c) (hmode : r.mode = .plain)
    (hlength : r.field.length + f.length ≤ fmt.limit) :
    scan (feed fmt) r f = some { r with field := r.field ++ f } := by
  induction f generalizing r with
  | nil => simp
  | cons c f ih =>
    obtain ⟨hdelimiter, hquote, hreturn, hline⟩ := hf c List.mem_cons_self
    have hlt : r.field.length < fmt.limit := by
      rw [List.length_cons] at hlength
      omega
    have hfeed : feed fmt r c = some { r with field := r.field ++ [c] } := by
      simp [feed, readChar, Reader.add, hmode, hdelimiter, hreturn, hline, hlt]
    have hrest := ih (r := { r with field := r.field ++ [c] }) (fun c' hc' => hf c' (List.mem_cons_of_mem _ hc')) hmode (by
      simp only [List.length_append, List.length_cons, List.length_nil] at hlength ⊢
      omega)
    rw [scan, hfeed, Option.bind_some, hrest]
    simp

theorem scan_quoted (hmode : r.mode = .quoted) (hlength : r.field.length + f.length ≤ fmt.limit) :
    scan (feed fmt) r (escape f) = some { r with field := r.field ++ f } := by
  induction f generalizing r with
  | nil => simp [escape]
  | cons c f ih =>
    have hlt : r.field.length < fmt.limit := by
      rw [List.length_cons] at hlength
      omega
    have hchar : scan (feed fmt) r (if c = '"' then ['"', '"'] else [c]) = some { r with field := r.field ++ [c] } := by
      split_ifs with hc
      · simp [scan, feed, readChar, Reader.add, hmode, hlt, hc]
      · rw [scan_singleton]
        by_cases hline : c = '\n'
        · simp [feed, readChar, Reader.add, hmode, hlt, hline, endLine]
        · simp [feed, readChar, Reader.add, hmode, hlt, hc, hline]
    have hescape : escape (c :: f) = (if c = '"' then ['"', '"'] else [c]) ++ escape f := rfl
    have hrest := ih (r := { r with field := r.field ++ [c] }) hmode (by
      simp only [List.length_append, List.length_cons, List.length_nil] at hlength ⊢
      omega)
    rw [hescape, scan_append, hchar, Option.bind_some, hrest]
    simp

structure Starts (r : Reader) : Prop where
  mode : r.mode = .record ∨ r.mode = .field
  field : r.field = []

/-- The reader has read the field `f`, or nothing of it. -/
structure Ends (fmt : Format) (r r' : Reader) (f : Text) : Prop where
  scanned : scan (feed fmt) r (writeField fmt.delimiter f) = some r'
  mode : r'.mode = .plain ∨ r'.mode = .quote ∨ f = [] ∧ r'.mode = r.mode
  field : r'.field = f
  fields : r'.fields = r.fields
  rows : r'.rows = r.rows

theorem ends_writeField (hr : Starts r) (hlength : f.length ≤ fmt.limit) : ∃ r', Ends fmt r r' f := by
  obtain ⟨hmode, hfield⟩ := hr
  by_cases hquotes : NeedsQuotes fmt.delimiter f
  · have hopen : feed fmt r '"' = some { r with mode := .quoted } := by
      rcases hmode with hmode | hmode
      · simp [feed, readChar, startField, hmode]
      · simp [feed, readChar, startField, hmode]
    have hbody : scan (feed fmt) { r with mode := .quoted } (escape f) = some { r with mode := .quoted, field := f } := by
      rw [scan_quoted rfl (by simpa [hfield] using hlength)]
      simp [hfield]
    refine ⟨{ r with mode := .quote, field := f }, ⟨?_, Or.inr (Or.inl rfl), rfl, rfl, rfl⟩⟩
    rw [writeField, if_pos hquotes, scan, hopen, Option.bind_some, scan_append, hbody, Option.bind_some, scan_singleton]
    simp [feed, readChar]
  · have hord := ordinary_of_not_needsQuotes hquotes
    have hwrite : writeField fmt.delimiter f = f := if_neg hquotes
    cases f with
    | nil => exact ⟨r, ⟨by rw [hwrite, scan_nil], Or.inr (Or.inr ⟨rfl, rfl⟩), hfield, rfl, rfl⟩⟩
    | cons c f =>
      obtain ⟨hdelimiter, hquote, hreturn, hline⟩ := hord c List.mem_cons_self
      rw [List.length_cons] at hlength
      have hlt : 0 < fmt.limit := by omega
      have hfirst : feed fmt r c = some { r with mode := .plain, field := [c] } := by
        rcases hmode with hmode | hmode
        · simp [feed, readChar, startField, Reader.add, hmode, hfield, hdelimiter, hquote, hreturn, hline, hlt]
        · simp [feed, readChar, startField, Reader.add, hmode, hfield, hdelimiter, hquote, hreturn, hline, hlt]
      have hrest := scan_plain (r := { r with mode := .plain, field := [c] }) (f := f)
        (fun c' hc' => hord c' (List.mem_cons_of_mem _ hc')) rfl (by simp only [List.length_cons, List.length_nil]; omega)
      refine ⟨{ r with mode := .plain, field := c :: f }, ⟨?_, Or.inl rfl, rfl, rfl, rfl⟩⟩
      rw [hwrite, scan, hfirst, Option.bind_some, hrest]
      rfl

theorem feed_delimiter {r' : Reader} (hr : Starts r) (h : Ends fmt r r' f) (hquote : fmt.delimiter ≠ '"')
    (hreturn : fmt.delimiter ≠ '\r') (hline : fmt.delimiter ≠ '\n') :
    feed fmt r' fmt.delimiter = some { r with mode := .field, field := [], fields := r.fields ++ [f] } := by
  have hsave : feed fmt r' fmt.delimiter = some (r'.save .field) := by
    rcases h.mode with hmode | hmode | ⟨rfl, hmode⟩
    · simp [feed, readChar, hmode, hreturn, hline]
    · simp [feed, readChar, hmode, hquote, hline]
    · rcases hr.mode with hm | hm
      · simp [feed, readChar, startField, hmode, hm, hquote, hreturn, hline]
      · simp [feed, readChar, startField, hmode, hm, hquote, hreturn, hline]
  rw [hsave, Reader.save, h.field, h.fields, h.rows]

theorem scan_lineEnd {r' : Reader} (h : Ends fmt r r' f) (hreturn : fmt.delimiter ≠ '\r')
    (hnonempty : r.mode = .field ∨ f ≠ [] ∨ r'.mode = .quote) (hr : Starts r) :
    scan (feed fmt) r' ['\r', '\n'] =
      some { r with mode := .record, field := [], fields := [], rows := r.rows ++ [r.fields ++ [f]] } := by
  have hsave : feed fmt r' '\r' = some (r'.save .newline) := by
    rcases h.mode with hmode | hmode | ⟨rfl, hmode⟩
    · simp [feed, readChar, hmode]
    · simp [feed, readChar, hmode, hreturn.symm]
    · have hfield : r.mode = .field := by
        rcases hnonempty with hm | hm | hm
        · exact hm
        · exact absurd rfl hm
        · rcases hr.mode with hrm | hrm
          · rw [hmode, hrm] at hm
            cases hm
          · exact hrm
      simp [feed, readChar, startField, hmode, hfield]
  rw [scan, hsave, Option.bind_some, scan_singleton]
  simp [feed, readChar, Reader.save, endLine, Reader.emit, h.field, h.fields, h.rows]

/-- **A row** of one field or more, of which a single one is not empty. -/
theorem scan_joinFields {fs : List Text} {f : Text} (hr : Starts r) (hquote : fmt.delimiter ≠ '"')
    (hreturn : fmt.delimiter ≠ '\r') (hline : fmt.delimiter ≠ '\n') (hlength : ∀ g ∈ f :: fs, g.length ≤ fmt.limit)
    (hempty : r.mode = .field ∨ f :: fs ≠ [[]]) :
    scan (feed fmt) r (joinFields fmt.delimiter (f :: fs) ++ ['\r', '\n']) =
      some { r with mode := .record, field := [], fields := [], rows := r.rows ++ [r.fields ++ f :: fs] } := by
  induction fs generalizing r f with
  | nil =>
    obtain ⟨r', hends⟩ : ∃ r', Ends fmt r r' f := ends_writeField hr (hlength f List.mem_cons_self)
    have hnonempty : r.mode = .field ∨ f ≠ [] ∨ r'.mode = .quote := by
      rcases hempty with hmode | hf
      · exact Or.inl hmode
      · exact Or.inr (Or.inl fun heq => hf (by rw [heq]))
    rw [joinFields_singleton, scan_append, hends.scanned, Option.bind_some, scan_lineEnd hends hreturn hnonempty hr]
  | cons g fs ih =>
    obtain ⟨r', hends⟩ : ∃ r', Ends fmt r r' f := ends_writeField hr (hlength f List.mem_cons_self)
    have hrest := ih (r := { r with mode := .field, field := [], fields := r.fields ++ [f] }) (f := g) ⟨Or.inr rfl, rfl⟩
      (fun g' hg' => hlength g' (List.mem_cons_of_mem _ hg')) (Or.inl rfl)
    rw [joinFields_cons_cons, List.append_assoc, List.cons_append, scan_append, hends.scanned, Option.bind_some, scan,
      feed_delimiter hr hends hquote hreturn hline, Option.bind_some, hrest]
    simp

def between (rows : List (List Text)) : Reader := { rows }

theorem scan_writeRow {rows : List (List Text)} {row : List Text} (hquote : fmt.delimiter ≠ '"')
    (hreturn : fmt.delimiter ≠ '\r') (hline : fmt.delimiter ≠ '\n') (hlength : ∀ g ∈ row, g.length ≤ fmt.limit) :
    scan (feed fmt) (between rows) (writeRow fmt.delimiter row) = some (between (rows ++ [row])) := by
  unfold writeRow
  by_cases hempty : row = [[]]
  · -- two quotes, and nothing between them
    rw [if_pos hempty, hempty]
    simp [scan, feed, readChar, startField, between, Reader.save, endLine, Reader.emit, hreturn.symm]
  · rw [if_neg hempty]
    cases row with
    | nil => simp [joinFields_nil, scan, feed, readChar, between, endLine, Reader.emit]
    | cons f fs =>
      rw [scan_joinFields ⟨Or.inl rfl, rfl⟩ hquote hreturn hline hlength (Or.inr hempty)]
      simp [between]

theorem scan_writeAll (before : List (List Text)) {rows : List (List Text)} (hquote : fmt.delimiter ≠ '"') (hreturn : fmt.delimiter ≠ '\r')
    (hline : fmt.delimiter ≠ '\n') (hlength : ∀ row ∈ rows, ∀ g ∈ row, g.length ≤ fmt.limit) :
    scan (feed fmt) (between before) (writeAll fmt.delimiter rows) = some (between (before ++ rows)) := by
  induction rows generalizing before with
  | nil => simp [writeAll]
  | cons row rows ih =>
    obtain ⟨hrow, hrows⟩ := List.forall_mem_cons.mp hlength
    have hrest := ih (before ++ [row]) hrows
    have hcons : writeAll fmt.delimiter (row :: rows) = writeRow fmt.delimiter row ++ writeAll fmt.delimiter rows := rfl
    rw [hcons, scan_append, scan_writeRow hquote hreturn hline hrow, Option.bind_some, hrest, List.append_assoc,
      List.singleton_append]

theorem getLast?_writeAll (delimiter : Char) (rows : List (List Text)) :
    (writeAll delimiter rows).getLast?.all (· = '\n') = true := by
  rcases List.eq_nil_or_concat rows with rfl | ⟨rows, row, rfl⟩
  · rfl
  · have hconcat : writeAll delimiter (rows.concat row) =
        writeAll delimiter rows ++ (if row = [[]] then ['"', '"'] else joinFields delimiter row) ++ ['\r'] ++ ['\n'] := by
      simp [writeAll, writeRow]
    rw [hconcat, List.getLast?_concat]
    rfl

/-- **Round trip.** A table whose fields are not too long is read as it was written. -/
theorem readAll_writeAll {rows : List (List Text)} (hquote : fmt.delimiter ≠ '"') (hreturn : fmt.delimiter ≠ '\r')
    (hline : fmt.delimiter ≠ '\n') (hlength : ∀ row ∈ rows, ∀ g ∈ row, g.length ≤ fmt.limit) :
    readAll fmt (writeAll fmt.delimiter rows) = some rows := by
  have hscan := scan_writeAll [] hquote hreturn hline hlength
  have hstart : between [] = {} := rfl
  unfold readAll
  rw [← hstart, hscan, Option.map_some, if_pos (getLast?_writeAll _ _)]
  rfl

end Smara.Lib.Csv
