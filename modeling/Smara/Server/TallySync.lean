import Smara.Ingest.Phones
import Smara.Lib.Double
import Smara.Lib.Each
import Smara.Server.Imports

/-! # The nightly sync

The desktop posts what the customers of a shop owe and what the shop owes its suppliers. `apply_sync` writes the
first in one transaction and the second, with the row of the log, in another one.

* `Point`: where an error of the database may occur.
* `applySync`: the call.
* `AllOrNothing`: the call returns with everything applied, or raises with nothing written.
* `Settled`: the syncs whose second transaction goes through, or whose first one leaves nothing behind.
* `tallySync_iff`: a run of syncs is all or nothing exactly if each of them is settled, and paid bills stay paid. -/

namespace Smara.Server.TallySync

open Ingest (Unicode phone syncPhone ascii)
open Lib.Each Lib.Machine Lib.Overwrite Lib.Round Lib.Table
open Server.Schema Server.Ledger
open TaskStore.Schema (Time)

/-! ### The body -/

/-- `Field(gt=0, lt=1e10)` -/
structure Rupees where
  value : ℚ
  pos : 0 < value
  lt : value < 10 ^ 10

structure ReceivableIn where
  party : String
  phone : String
  invoiceRef : String
  amountRupees : Rupees
  dueDate : Day
  gstin : Option String := none

structure PayableIn where
  supplier : String
  billRef : String
  billDate : Day
  amountRupees : Rupees
  gstin : Option String := none
  msmeClass : String := "unknown"
  agreement45 : Bool := false
  paid : Bool := false

structure SyncBody where
  receivables : List ReceivableIn := []
  payables : List PayableIn := []

/-- `int(round(rupees * 100))` -/
def paise (rupees : Rupees) : ℤ := halfEven (double (rupees.value * 100))

/-! ### The tables -/

inductive MsmeClass
  | micro | small | other | unknown
  deriving DecidableEq

structure Payable where
  tenantId : Id
  supplier : String
  supplierGstin : Option String
  billRef : String
  billDate : Day
  amountPaise : ℤ
  msmeClass : MsmeClass
  agreement45 : Bool
  paidAt : Option Day
  deriving DecidableEq

/-- `UNIQUE (tenant_id, bill_ref, supplier)` -/
def Payable.key (p : Payable) : Id × String × String := (p.tenantId, p.billRef, p.supplier)

/-- A row of `tally_syncs`. -/
structure TallyRow where
  tenantId : Id
  deviceId : Option String
  receivables : ℕ
  payables : ℕ
  deriving DecidableEq

structure Store where
  db : Db := {}
  payables : List Payable := []
  tallySyncs : List TallyRow := []

def Store.tables (s : Store) :
    List Party × List Obligation × List ObligationEvent × List Payable × List TallyRow :=
  (s.db.parties, s.db.obligations, s.db.events, s.payables, s.tallySyncs)

/-! ### The call -/

/-- **Where an error of the database may occur**: when a transaction begins, at a statement of it, or when it is to
be committed. The rows of a loop are numbered. -/
inductive Point
  | importBegins
  | party (row : ℕ)
  | obligation (row : ℕ)
  | event (row : ℕ)
  | importCommits
  | billsBegin
  | payable (row : ℕ)
  | log
  | billsCommit

/-- `gen_random_uuid`: an id that no row has. -/
structure Uuid where
  next : List Id → Id
  next_new : ∀ taken, next taken ∉ taken

/-- A call of `apply_sync`, with the errors of the database that it meets. -/
structure Sync where
  tenantId : Id
  deviceId : Option String
  body : SyncBody
  now : Time
  today : Day
  fails : Point → Bool

variable (u : Unicode) (uuid : Uuid)

def sheetRows : List Id → List ReceivableIn → List SheetRow
  | _, [] => []
  | taken, r :: rs =>
    let partyId := uuid.next taken
    let obligationId := uuid.next (partyId :: taken)
    { party := r.party
      phone := String.ofList (syncPhone u r.phone.toList)
      invoiceRef := r.invoiceRef
      amountPaise := paise r.amountRupees
      dueDate := r.dueDate
      gstin := r.gstin
      partyId
      obligationId } :: sheetRows (obligationId :: partyId :: taken) rs

def ids (db : Db) : List Id := db.parties.map Party.id ++ db.obligations.map Obligation.id

/-- How many rows of a sheet made an invoice, and how many changed one. -/
structure Counts where
  created : ℕ := 0
  updated : ℕ := 0

/-- The loop of `import_rows`, of which a statement may fail. -/
def importLoop (fails : Point → Bool) (tenantId : Id) (now : Time) :
    ℕ → List SheetRow → Counts → Db → Option (Counts × Db)
  | _, [], n, db => some (n, db)
  | i, r :: rows, n, db =>
    if fails (.party i) then none
    else
      match importParty tenantId r db with
      | none => none
      | some (partyId, db) =>
        if fails (.obligation i) then none
        else
          match importObligation tenantId partyId now r db, db.obligations.find? fun o => Bills tenantId r.invoiceRef o with
          | none, _ => none
          | some db', none =>
            if fails (.event i) then none
            else importLoop fails tenantId now (i + 1) rows { n with created := n.created + 1 } db'
          | some db', some o =>
            importLoop fails tenantId now (i + 1) rows
              (if o.state = .paid then n else { n with updated := n.updated + 1 }) db'

/-- **`import_rows`**, one transaction. -/
def importTransaction (fails : Point → Bool) (tenantId : Id) (now : Time) (rows : List SheetRow) (db : Db) :
    Option (Counts × Db) :=
  if fails .importBegins then none
  else
    match importLoop fails tenantId now 0 rows {} db with
    | none => none
    | some r => if fails .importCommits then none else some r

def msmeClass (s : String) : MsmeClass :=
  if s = "micro" then .micro else if s = "small" then .small else if s = "other" then .other else .unknown

def newPayable (tenantId : Id) (today : Day) (p : PayableIn) : Payable where
  tenantId := tenantId
  supplier := p.supplier
  supplierGstin := p.gstin
  billRef := p.billRef
  billDate := p.billDate
  amountPaise := paise p.amountRupees
  msmeClass := msmeClass p.msmeClass
  agreement45 := p.agreement45
  paidAt := if p.paid then some today else none

/-- `ON CONFLICT (tenant_id, bill_ref, supplier) DO UPDATE` -/
def mergePayable (new old : Payable) : Payable :=
  { old with
    amountPaise := new.amountPaise
    msmeClass := new.msmeClass
    agreement45 := new.agreement45
    paidAt := old.paidAt.or new.paidAt }

def putPayable (tenantId : Id) (today : Day) (p : PayableIn) (t : List Payable) : List Payable :=
  let new := newPayable tenantId today p
  upsert Payable.key new (mergePayable new) t

def payableLoop (fails : Point → Bool) (tenantId : Id) (today : Day) :
    ℕ → List PayableIn → List Payable → Option (List Payable)
  | _, [], t => some t
  | i, p :: ps, t =>
    if fails (.payable i) then none else payableLoop fails tenantId today (i + 1) ps (putPayable tenantId today p t)

def Sync.row (c : Sync) : TallyRow where
  tenantId := c.tenantId
  deviceId := c.deviceId
  receivables := c.body.receivables.length
  payables := c.body.payables.length

def billsTransaction (c : Sync) (s : Store) : Option Store :=
  if c.fails .billsBegin then none
  else
    match payableLoop c.fails c.tenantId c.today 0 c.body.payables s.payables with
    | none => none
    | some payables =>
      if c.fails .log then none
      else if c.fails .billsCommit then none
      else some { s with payables, tallySyncs := s.tallySyncs ++ [c.row] }

/-- What a call returns. -/
structure Result where
  counts : Counts
  payables : ℕ

/-- **`apply_sync`**: what it returns, nothing if it raises, and the database after it. -/
def applySync (c : Sync) (s : Store) : Option Result × Store :=
  let rows := sheetRows u uuid (ids s.db) c.body.receivables
  let imported :=
    if c.body.receivables = [] then some ({}, s.db) else importTransaction c.fails c.tenantId c.now rows s.db
  match imported with
  | none => (none, s)
  | some (counts, db) =>
    match billsTransaction c { s with db } with
    | none => (none, { s with db })
    | some s' => (some { counts, payables := c.body.payables.length }, s')

def step (s : Store) (c : Sync) : Store := (applySync u uuid c s).2

/-! ### What is to hold -/

/-- **Everything of the body is applied**, where the last row of an invoice or of a bill counts. -/
structure Applied (c : Sync) (s s' : Store) : Prop where
  parties : ∀ r ∈ c.body.receivables,
    ∃ p ∈ s'.db.parties, Reaches c.tenantId (String.ofList (syncPhone u r.phone.toList)) p
  receivables : ∀ pre r post, c.body.receivables = pre ++ r :: post → (∀ r' ∈ post, r'.invoiceRef ≠ r.invoiceRef) →
    ∃ o ∈ s'.db.obligations, Bills c.tenantId r.invoiceRef o ∧
      (o.state = .paid ∨ o.amountPaise = paise r.amountRupees ∧ o.dueDate = r.dueDate)
  payables : ∀ pre p post, c.body.payables = pre ++ p :: post →
    (∀ p' ∈ post, (p'.billRef, p'.supplier) ≠ (p.billRef, p.supplier)) →
      ∃ q, lookup Payable.key (c.tenantId, p.billRef, p.supplier) s'.payables = some q ∧
        q.amountPaise = paise p.amountRupees ∧ q.msmeClass = msmeClass p.msmeClass ∧ q.agreement45 = p.agreement45
  paid : ∀ p ∈ c.body.payables, p.paid →
    ∃ q, lookup Payable.key (c.tenantId, p.billRef, p.supplier) s'.payables = some q ∧ q.paidAt.isSome
  logged : s'.tallySyncs = s.tallySyncs ++ [c.row]

def AllOrNothing (s : Store) (c : Sync) : Prop :=
  ((applySync u uuid c s).1.isSome ∧ Applied u c s (applySync u uuid c s).2) ∨
    ((applySync u uuid c s).1 = none ∧ (applySync u uuid c s).2.tables = s.tables)

/-- **No bill becomes unpaid.** -/
def KeepsPaid (s s' : Store) : Prop :=
  ∀ k p, lookup Payable.key k s.payables = some p → p.paidAt.isSome →
    ∃ p', lookup Payable.key k s'.payables = some p' ∧ p'.paidAt = p.paidAt

/-- A statement of the first transaction fails, or its begin or its commit. The event is written for an invoice that
is neither in the ledger nor in a row before. -/
def FirstFails (s : Store) (c : Sync) : Prop :=
  c.fails .importBegins ∨ c.fails .importCommits ∨
    ∃ pre r post, c.body.receivables = pre ++ r :: post ∧
      (c.fails (.party pre.length) ∨ c.fails (.obligation pre.length) ∨
        (c.fails (.event pre.length) ∧ (∀ o ∈ s.db.obligations, ¬ Bills c.tenantId r.invoiceRef o) ∧
          ∀ r' ∈ pre, r'.invoiceRef ≠ r.invoiceRef))

def SecondFails (c : Sync) : Prop :=
  c.fails .billsBegin ∨ c.fails .billsCommit ∨ c.fails .log ∨ ∃ i < c.body.payables.length, c.fails (.payable i)

/-- The receivables say what the ledger has: their customers and their invoices are there, and of each the last row
says nothing new. -/
structure Known (s : Store) (c : Sync) : Prop where
  parties : ∀ r ∈ c.body.receivables,
    ∃ p ∈ s.db.parties, Reaches c.tenantId (String.ofList (syncPhone u r.phone.toList)) p
  obligations : ∀ r ∈ c.body.receivables, ∃ o ∈ s.db.obligations, Bills c.tenantId r.invoiceRef o
  taxIds : ∀ pre r post, c.body.receivables = pre ++ r :: post →
    (∀ r' ∈ post, syncPhone u r'.phone.toList = syncPhone u r.phone.toList → r'.gstin = none) → r.gstin.isSome →
      ∀ p ∈ s.db.parties, Reaches c.tenantId (String.ofList (syncPhone u r.phone.toList)) p → p.gstin = r.gstin
  invoices : ∀ pre r post, c.body.receivables = pre ++ r :: post → (∀ r' ∈ post, r'.invoiceRef ≠ r.invoiceRef) →
    ∀ o ∈ s.db.obligations, Bills c.tenantId r.invoiceRef o → o.state ≠ .paid →
      o.amountPaise = paise r.amountRupees ∧ o.dueDate = r.dueDate

def Settled (s : Store) (c : Sync) : Prop :=
  c.body.receivables = [] ∨ FirstFails s c ∨ ¬ SecondFails c ∨ Known u s c

/-! ### The rows -/

variable {u uuid}

structure Says (u : Unicode) (r : ReceivableIn) (row : SheetRow) : Prop where
  phone : row.phone = String.ofList (syncPhone u r.phone.toList)
  invoiceRef : row.invoiceRef = r.invoiceRef
  amountPaise : row.amountPaise = paise r.amountRupees
  dueDate : row.dueDate = r.dueDate
  gstin : row.gstin = r.gstin

theorem sheetRows_say {taken : List Id} {rs : List ReceivableIn} :
    List.Forall₂ (Says u) rs (sheetRows u uuid taken rs) := by
  induction rs generalizing taken with
  | nil => exact .nil
  | cons r rs ih => exact .cons ⟨rfl, rfl, rfl, rfl, rfl⟩ ih

def NewIds : List Id → List SheetRow → Prop
  | _, [] => True
  | taken, r :: rows =>
    r.partyId ∉ taken ∧ r.obligationId ∉ r.partyId :: taken ∧ NewIds (r.obligationId :: r.partyId :: taken) rows

theorem newIds_sheetRows {taken : List Id} {rs : List ReceivableIn} : NewIds taken (sheetRows u uuid taken rs) := by
  induction rs generalizing taken with
  | nil => trivial
  | cons r rs ih =>
    exact ⟨uuid.next_new taken, uuid.next_new _, ih⟩

theorem double_nonneg {q : ℚ} (h : 0 ≤ q) : 0 ≤ double q := by
  have hpow : (0 : ℚ) < 2 ^ exponent q := zpow_pos (by norm_num) _
  have hround : 0 ≤ halfEven (q / 2 ^ exponent q) := le_halfEven (by push_cast; exact div_nonneg h hpow.le)
  exact mul_nonneg (by exact_mod_cast hround) hpow.le

theorem paise_nonneg (r : Rupees) : 0 ≤ paise r := by
  refine le_halfEven ?_
  push_cast
  exact double_nonneg (mul_nonneg r.pos.le (by norm_num))

/-! ### The first transaction -/

section Import
variable {fails : Point → Bool} {tenantId partyId : Id} {now : Time} {r : SheetRow} {rows : List SheetRow} {db db' : Db}
  {taken : List Id} {i : ℕ} {n : Counts}

theorem importParty_of_new (h : r.partyId ∉ ids db) : ∃ partyId db', importParty tenantId r db = some (partyId, db') ∧
    db'.obligations = db.obligations ∧ ids db' ⊆ r.partyId :: ids db := by
  unfold importParty
  split
  · next p hfind =>
    refine ⟨p.id, _, rfl, rfl, fun x hx => List.mem_cons_of_mem _ ?_⟩
    have hsame : (updateWhere (fun q => q.id = p.id) (fun q => { q with gstin := r.gstin.or q.gstin })
        db.parties).map Party.id = db.parties.map Party.id := map_updateWhere fun _ _ => rfl
    rw [ids, hsame] at hx
    exact hx
  · have hnone : ¬ (db.party r.partyId).isSome := by
      rw [Option.not_isSome_iff_eq_none, Db.party, lookup_eq_none]
      exact fun p hp hid => h (List.mem_append_left _ (hid ▸ List.mem_map_of_mem hp))
    rw [if_neg hnone]
    refine ⟨r.partyId, _, rfl, rfl, ?_⟩
    intro x hx
    simp only [ids, List.map_append, List.mem_append, List.map_cons, List.map_nil, List.mem_singleton] at hx
    simp only [ids, List.mem_cons, List.mem_append]
    tauto

theorem importObligation_of_new (h : r.obligationId ∉ ids db) (hamount : 0 ≤ r.amountPaise) :
    ∃ db', importObligation tenantId partyId now r db = some db' ∧ ids db' ⊆ r.obligationId :: ids db ∧
      ∀ ref, (∀ o ∈ db'.obligations, ¬ Bills tenantId ref o) ↔
        (∀ o ∈ db.obligations, ¬ Bills tenantId ref o) ∧ r.invoiceRef ≠ ref := by
  unfold importObligation
  rw [if_neg (by omega)]
  split
  · next o hfind =>
    refine ⟨_, rfl, fun x hx => List.mem_cons_of_mem _ ?_, fun ref => ?_⟩
    · have hsame : (updateWhere (fun p => p.id = o.id ∧ p.state ≠ .paid)
          (fun p => { p with amountPaise := r.amountPaise, dueDate := r.dueDate }) db.obligations).map Obligation.id =
            db.obligations.map Obligation.id := map_updateWhere fun _ _ => rfl
      rw [ids, Db.updateObligation, hsame] at hx
      exact hx
    · have hfound : Bills tenantId r.invoiceRef o := by simpa [Bills] using List.find?_some hfind
      have hmem := List.mem_of_find?_eq_some hfind
      constructor
      · intro hnone
        have hold : ∀ o ∈ db.obligations, ¬ Bills tenantId ref o := by
          intro q hq hbills
          refine hnone _ (mem_updateWhere.mpr ⟨q, hq, rfl⟩) ?_
          split_ifs <;> exact hbills
        exact ⟨hold, fun href => hold o hmem (href ▸ hfound)⟩
      · rintro ⟨hnone, -⟩ q hq hbills
        obtain ⟨q', hq', rfl⟩ := mem_updateWhere.mp hq
        refine hnone q' hq' ?_
        split_ifs at hbills <;> exact hbills
  · have hnone : ¬ (db.obligation r.obligationId).isSome := by
      rw [Option.not_isSome_iff_eq_none, Db.obligation, lookup_eq_none]
      exact fun o ho hid => h (List.mem_append_right _ (hid ▸ List.mem_map_of_mem ho))
    rw [if_neg hnone]
    refine ⟨_, rfl, ?_, fun ref => ?_⟩
    · intro x hx
      simp only [ids, Db.event, List.map_append, List.mem_append, List.map_cons, List.map_nil, List.mem_singleton] at hx
      simp only [ids, List.mem_cons, List.mem_append]
      tauto
    · simp only [Db.event, List.forall_mem_append, List.forall_mem_singleton, Bills, true_and]

/-- A statement for a row fails: `i` rows are done, and the event is written for an invoice that is not there yet. -/
def RowFails (fails : Point → Bool) (tenantId : Id) (db : Db) (i : ℕ) (rows : List SheetRow) : Prop :=
  ∃ pre r post, rows = pre ++ r :: post ∧
    (fails (.party (i + pre.length)) ∨ fails (.obligation (i + pre.length)) ∨
      (fails (.event (i + pre.length)) ∧ (∀ o ∈ db.obligations, ¬ Bills tenantId r.invoiceRef o) ∧
        ∀ r' ∈ pre, r'.invoiceRef ≠ r.invoiceRef))

theorem not_rowFails_nil : ¬ RowFails fails tenantId db i [] := by
  rintro ⟨pre, r, post, h, -⟩
  simp at h

theorem rowFails_cons (hbills : ∀ ref, (∀ o ∈ db'.obligations, ¬ Bills tenantId ref o) ↔
    (∀ o ∈ db.obligations, ¬ Bills tenantId ref o) ∧ r.invoiceRef ≠ ref) :
    RowFails fails tenantId db i (r :: rows) ↔
      (fails (.party i) ∨ fails (.obligation i) ∨
        (fails (.event i) ∧ ∀ o ∈ db.obligations, ¬ Bills tenantId r.invoiceRef o)) ∨
      RowFails fails tenantId db' (i + 1) rows := by
  constructor
  · rintro ⟨pre, r', post, heq, h⟩
    cases pre with
    | nil =>
      obtain ⟨rfl, rfl⟩ := List.cons.inj heq
      refine Or.inl ?_
      simpa using h
    | cons x pre =>
      obtain ⟨rfl, rfl⟩ := List.cons.inj heq
      refine Or.inr ⟨pre, r', post, rfl, ?_⟩
      have hlength : i + 1 + pre.length = i + (r :: pre).length := by rw [List.length_cons]; omega
      rw [hlength, hbills]
      simpa only [List.forall_mem_cons, and_assoc] using h
  · rintro (h | ⟨pre, r', post, rfl, h⟩)
    · exact ⟨[], r, rows, rfl, by simpa using h⟩
    · refine ⟨r :: pre, r', post, rfl, ?_⟩
      have hlength : i + 1 + pre.length = i + (r :: pre).length := by rw [List.length_cons]; omega
      rw [hlength, hbills] at h
      simpa only [List.forall_mem_cons, and_assoc] using h

/-- **The loop raises** exactly if a statement of it fails, and leaves what the import leaves otherwise. -/
theorem importLoop_spec (hids : ids db ⊆ taken) (hnew : NewIds taken rows)
    (hamounts : ∀ r ∈ rows, 0 ≤ r.amountPaise) :
    (importLoop fails tenantId now i rows n db = none ↔ RowFails fails tenantId db i rows) ∧
      ∀ n' db', importLoop fails tenantId now i rows n db = some (n', db') →
        importAll tenantId now rows db = some db' := by
  induction rows generalizing i n db taken with
  | nil =>
    refine ⟨by simp [importLoop, not_rowFails_nil], ?_⟩
    rintro n' db' h
    cases h
    rfl
  | cons r rows ih =>
    obtain ⟨hparty, hobligation, hnew⟩ := hnew
    obtain ⟨hamount, hamounts⟩ := List.forall_mem_cons.mp hamounts
    obtain ⟨partyId, db₁, h₁, hsame, hids₁⟩ :=
      @importParty_of_new tenantId r db fun h => hparty (hids h)
    have hnew₁ : r.obligationId ∉ ids db₁ := by
      intro h
      rcases List.mem_cons.mp (hids₁ h) with heq | h
      · exact hobligation (heq ▸ List.mem_cons_self)
      · exact hobligation (List.mem_cons_of_mem _ (hids h))
    obtain ⟨db₂, h₂, hids₂, hbills⟩ :=
      @importObligation_of_new tenantId partyId now r db₁ hnew₁ hamount
    rw [hsame] at hbills
    have hids' : ids db₂ ⊆ r.obligationId :: r.partyId :: taken := by
      intro x hx
      rcases List.mem_cons.mp (hids₂ hx) with rfl | hx
      · simp
      · rcases List.mem_cons.mp (hids₁ hx) with rfl | hx
        · simp
        · simp [hids hx]
    rw [rowFails_cons hbills]
    unfold importLoop importAll
    rw [h₁]
    dsimp only
    rw [h₂, hsame]
    by_cases hp : fails (.party i)
    · simp [hp]
    by_cases ho : fails (.obligation i)
    · simp [hp, ho]
    simp only [hp, ho, if_false, false_or, Bool.false_eq_true]
    cases hfind : db.obligations.find? fun o => Bills tenantId r.invoiceRef o with
    | none =>
      have hnone : ∀ o ∈ db.obligations, ¬ Bills tenantId r.invoiceRef o := by simpa using hfind
      dsimp only
      by_cases he : fails (.event i)
      · simpa [he] using Or.inl hnone
      · simp only [he, if_false, Bool.false_eq_true, false_and, false_or]
        exact ih hids' hnew hamounts
    | some o =>
      have hsome : ¬ ∀ o ∈ db.obligations, ¬ Bills tenantId r.invoiceRef o := by
        intro hnone
        exact hnone o (List.mem_of_find?_eq_some hfind) (by simpa using List.find?_some hfind)
      dsimp only
      simp only [hsome, and_false, false_or]
      exact ih hids' hnew hamounts

/-- **The first transaction raises** exactly if something of it fails. -/
theorem importTransaction_spec {rs : List ReceivableIn} {s : Store} {c : Sync} (hrs : rs = c.body.receivables) :
    (importTransaction c.fails c.tenantId c.now (sheetRows u uuid (ids s.db) rs) s.db = none ↔ FirstFails s c) ∧
      ∀ n' db', importTransaction c.fails c.tenantId c.now (sheetRows u uuid (ids s.db) rs) s.db = some (n', db') →
        importAll c.tenantId c.now (sheetRows u uuid (ids s.db) rs) s.db = some db' := by
  have hsays := @sheetRows_say u uuid (ids s.db) rs
  have hamounts : ∀ r ∈ sheetRows u uuid (ids s.db) rs, 0 ≤ r.amountPaise := by
    intro row hrow
    obtain ⟨r, -, hr⟩ := forall₂_mem_right hsays hrow
    rw [hr.amountPaise]
    exact paise_nonneg _
  obtain ⟨hnone, hsome⟩ := @importLoop_spec c.fails c.tenantId c.now (sheetRows u uuid (ids s.db) rs) s.db (ids s.db) 0 {}
    (List.Subset.refl (ids s.db)) newIds_sheetRows hamounts
  have hfails : RowFails c.fails c.tenantId s.db 0 (sheetRows u uuid (ids s.db) rs) ↔
      ∃ pre r post, c.body.receivables = pre ++ r :: post ∧
        (c.fails (.party pre.length) ∨ c.fails (.obligation pre.length) ∨
          (c.fails (.event pre.length) ∧ (∀ o ∈ s.db.obligations, ¬ Bills c.tenantId r.invoiceRef o) ∧
            ∀ r' ∈ pre, r'.invoiceRef ≠ r.invoiceRef)) := by
    rw [← hrs]
    constructor
    · rintro ⟨pre, row, post, heq, h⟩
      rw [heq] at hsays
      obtain ⟨pre', r, post', hrs', hpre, hr, -⟩ := forall₂_split_right hsays
      refine ⟨pre', r, post', hrs', ?_⟩
      rw [Nat.zero_add, ← hpre.length_eq, hr.invoiceRef] at h
      refine h.imp_right (Or.imp_right fun h => ⟨h.1, h.2.1, fun r' hr' => ?_⟩)
      obtain ⟨row', hrow', hsays'⟩ := forall₂_mem_left hpre hr'
      rw [← hsays'.invoiceRef]
      exact h.2.2 row' hrow'
    · rintro ⟨pre, r, post, heq, h⟩
      rw [heq] at hsays
      obtain ⟨pre', row, post', hrows, hpre, hr, -⟩ := forall₂_split_left hsays
      rw [heq]
      refine ⟨pre', row, post', hrows, ?_⟩
      rw [Nat.zero_add, ← hpre.length_eq, hr.invoiceRef]
      refine h.imp_right (Or.imp_right fun h => ⟨h.1, h.2.1, fun row' hrow' => ?_⟩)
      obtain ⟨r', hr', hsays'⟩ := forall₂_mem_right hpre hrow'
      rw [hsays'.invoiceRef]
      exact h.2.2 r' hr'
  rw [hfails] at hnone
  unfold importTransaction FirstFails
  by_cases hbegins : c.fails .importBegins
  · simp [hbegins]
  rw [if_neg hbegins, or_iff_right hbegins]
  cases hloop : importLoop c.fails c.tenantId c.now 0 (sheetRows u uuid (ids s.db) rs) {} s.db with
  | none => exact ⟨iff_of_true rfl (Or.inr (hnone.mp hloop)), nofun⟩
  | some x =>
    rw [hloop] at hnone hsome
    dsimp only
    by_cases hcommits : c.fails .importCommits
    · simp [hcommits]
    · rw [if_neg hcommits, or_iff_right hcommits, ← hnone]
      exact ⟨Iff.rfl, hsome⟩

end Import

/-! ### The second transaction -/

section Bills
variable {fails : Point → Bool} {tenantId : Id} {today : Day} {ps : List PayableIn} {t t' : List Payable} {i : ℕ}

theorem payableLoop_spec : (payableLoop fails tenantId today i ps t = none ↔
    ∃ k < ps.length, fails (.payable (i + k))) ∧ ∀ t', payableLoop fails tenantId today i ps t = some t' →
      t' = ps.foldl (fun t p => putPayable tenantId today p t) t := by
  induction ps generalizing i t with
  | nil => exact ⟨by simp [payableLoop], fun t' h => (Option.some.inj h).symm⟩
  | cons p ps ih =>
    unfold payableLoop
    by_cases hfails : fails (.payable i)
    · rw [if_pos hfails]
      exact ⟨iff_of_true rfl ⟨0, by simp, by simpa using hfails⟩, nofun⟩
    · rw [if_neg hfails]
      refine ⟨ih.1.trans ?_, fun t' h => ih.2 t' h⟩
      constructor
      · rintro ⟨k, hk, h⟩
        exact ⟨k + 1, by simpa using hk, by rwa [Nat.add_comm k, ← Nat.add_assoc]⟩
      · rintro ⟨k, hk, h⟩
        cases k with
        | zero => exact absurd h (by simpa using hfails)
        | succ k => exact ⟨k, by simpa using hk, by rwa [Nat.add_comm k, ← Nat.add_assoc] at h⟩

/-- **The second transaction raises** exactly if something of it fails. -/
theorem billsTransaction_spec {c : Sync} {s : Store} : (billsTransaction c s = none ↔ SecondFails c) ∧
    ∀ s', billsTransaction c s = some s' → s' = { s with
      payables := c.body.payables.foldl (fun t p => putPayable c.tenantId c.today p t) s.payables
      tallySyncs := s.tallySyncs ++ [c.row] } := by
  obtain ⟨hnone, hsome⟩ := @payableLoop_spec c.fails c.tenantId c.today c.body.payables s.payables 0
  simp only [Nat.zero_add] at hnone
  unfold billsTransaction SecondFails
  by_cases hbegins : c.fails .billsBegin
  · simp [hbegins]
  rw [if_neg hbegins, or_iff_right hbegins]
  cases hloop : payableLoop c.fails c.tenantId c.today 0 c.body.payables s.payables with
  | none => exact ⟨iff_of_true rfl (Or.inr (Or.inr (hnone.mp hloop))), nofun⟩
  | some t =>
    rw [hloop] at hnone hsome
    rw [← hnone]
    dsimp only
    by_cases hlog : c.fails .log
    · simp [hlog]
    by_cases hcommits : c.fails .billsCommit
    · simp [hlog, hcommits]
    rw [if_neg hlog, if_neg hcommits, hsome t rfl]
    refine ⟨by simp [hlog, hcommits], fun s' h => (Option.some.inj h).symm⟩

theorem lookup_putPayable {k : Id × String × String} {p : PayableIn} :
    lookup Payable.key k (putPayable tenantId today p t) = if k = (tenantId, p.billRef, p.supplier) then
      some (((lookup Payable.key k t).map (mergePayable (newPayable tenantId today p))).getD
        (newPayable tenantId today p)) else lookup Payable.key k t :=
  lookup_upsert fun _ h => h

/-- What a row says of a bill, and that it is paid. -/
structure Billed (p : PayableIn) (q : Payable) : Prop where
  amountPaise : q.amountPaise = paise p.amountRupees
  msmeClass : q.msmeClass = msmeClass p.msmeClass
  agreement45 : q.agreement45 = p.agreement45

theorem put_billed {p : PayableIn} : ∃ q, lookup Payable.key (tenantId, p.billRef, p.supplier)
    (putPayable tenantId today p t) = some q ∧ Billed p q ∧ (p.paid → q.paidAt.isSome) := by
  rw [lookup_putPayable, if_pos rfl]
  refine ⟨_, rfl, ?_⟩
  cases lookup Payable.key (tenantId, p.billRef, p.supplier) t with
  | none => exact ⟨⟨rfl, rfl, rfl⟩, fun h => by simp [newPayable, h]⟩
  | some q => exact ⟨⟨rfl, rfl, rfl⟩, fun h => by simp [mergePayable, newPayable, h]⟩

theorem put_paid {p : PayableIn} {k : Id × String × String} {q : Payable} (h : lookup Payable.key k t = some q)
    (hpaid : q.paidAt.isSome) :
    ∃ q', lookup Payable.key k (putPayable tenantId today p t) = some q' ∧ q'.paidAt = q.paidAt := by
  rw [lookup_putPayable]
  split_ifs with hk
  · rw [h]
    refine ⟨_, rfl, ?_⟩
    show q.paidAt.or _ = q.paidAt
    exact Option.or_of_isSome hpaid
  · exact ⟨q, h, rfl⟩

theorem puts_paid {k : Id × String × String} {q : Payable} (h : lookup Payable.key k t = some q)
    (hpaid : q.paidAt.isSome) : ∃ q', lookup Payable.key k
      (ps.foldl (fun t p => putPayable tenantId today p t) t) = some q' ∧ q'.paidAt = q.paidAt := by
  induction ps generalizing t q with
  | nil => exact ⟨q, h, rfl⟩
  | cons p ps ih =>
    obtain ⟨q₁, h₁, hpaid₁⟩ := @put_paid tenantId today t p k q h hpaid
    obtain ⟨q₂, h₂, hpaid₂⟩ := ih h₁ (hpaid₁ ▸ hpaid)
    exact ⟨q₂, h₂, hpaid₂.trans hpaid₁⟩

theorem puts_other {k : Id × String × String} (h : ∀ p ∈ ps, k ≠ (tenantId, p.billRef, p.supplier)) :
    lookup Payable.key k (ps.foldl (fun t p => putPayable tenantId today p t) t) = lookup Payable.key k t := by
  induction ps generalizing t with
  | nil => rfl
  | cons p ps ih =>
    obtain ⟨hp, hps⟩ := List.forall_mem_cons.mp h
    rw [List.foldl_cons, ih hps, lookup_putPayable, if_neg hp]

end Bills

/-! ### A call -/

section Call
variable {s s' : Store} {c : Sync} {db' : Db} {n : Counts}

def Imports (u : Unicode) (uuid : Uuid) (s : Store) (c : Sync) (db' : Db) : Prop :=
  importAll c.tenantId c.now (sheetRows u uuid (ids s.db) c.body.receivables) s.db = some db'

/-- **The three ways a call ends.** -/
inductive Ends (u : Unicode) (uuid : Uuid) (s : Store) (c : Sync) : Option Result × Store → Prop
  /-- the first transaction raises -/
  | first (hrows : c.body.receivables ≠ []) (h : FirstFails s c) : Ends u uuid s c (none, s)
  /-- the second transaction raises -/
  | second {db' : Db} (himport : Imports u uuid s c db') (hfirst : c.body.receivables ≠ [] → ¬ FirstFails s c)
    (h : SecondFails c) : Ends u uuid s c (none, { s with db := db' })
  | returns {db' : Db} {r : Result} (himport : Imports u uuid s c db') (h : ¬ SecondFails c) :
    Ends u uuid s c (some r, {
      db := db'
      payables := c.body.payables.foldl (fun t p => putPayable c.tenantId c.today p t) s.payables
      tallySyncs := s.tallySyncs ++ [c.row] })

theorem ends_applySync (u : Unicode) (uuid : Uuid) (s : Store) (c : Sync) :
    Ends u uuid s c (applySync u uuid c s) := by
  unfold applySync
  have hsecond : ∀ n db', Imports u uuid s c db' → (c.body.receivables ≠ [] → ¬ FirstFails s c) →
      Ends u uuid s c (match billsTransaction c { s with db := db' } with
        | none => (none, { s with db := db' })
        | some s' => (some { counts := n, payables := c.body.payables.length }, s')) := by
    intro n db' himport hfirst
    obtain ⟨hnone, hsome⟩ := billsTransaction_spec (c := c) (s := { s with db := db' })
    cases hbills : billsTransaction c { s with db := db' } with
    | none => exact .second himport hfirst (hnone.mp hbills)
    | some s' =>
      rw [hsome s' hbills]
      refine .returns himport fun h => ?_
      rw [hnone.mpr h] at hbills
      cases hbills
  dsimp only
  by_cases hrows : c.body.receivables = []
  · rw [if_pos hrows]
    refine hsecond {} s.db ?_ fun h => absurd hrows h
    rw [Imports, hrows]
    rfl
  · rw [if_neg hrows]
    obtain ⟨hnone, hsome⟩ := @importTransaction_spec u uuid c.body.receivables s c rfl
    cases himport : importTransaction c.fails c.tenantId c.now (sheetRows u uuid (ids s.db) c.body.receivables) s.db with
    | none => exact .first hrows (hnone.mp himport)
    | some x =>
      refine hsecond x.1 x.2 (hsome _ _ himport) fun _ h => ?_
      rw [hnone.mpr h] at himport
      cases himport

theorem applied_receivables (hdb : Constraints s.db) (h : Imports u uuid s c db') :
    (∀ r ∈ c.body.receivables,
      ∃ p ∈ db'.parties, Reaches c.tenantId (String.ofList (syncPhone u r.phone.toList)) p) ∧
    ∀ pre r post, c.body.receivables = pre ++ r :: post → (∀ r' ∈ post, r'.invoiceRef ≠ r.invoiceRef) →
      ∃ o ∈ db'.obligations, Bills c.tenantId r.invoiceRef o ∧
        (o.state = .paid ∨ o.amountPaise = paise r.amountRupees ∧ o.dueDate = r.dueDate) := by
  have hsays := @sheetRows_say u uuid (ids s.db) c.body.receivables
  obtain ⟨hparties, hobligations⟩ := of_importAll hdb h
  constructor
  · intro r hr
    obtain ⟨row, hrow, hrr⟩ := forall₂_mem_left hsays hr
    rw [← hrr.phone]
    exact hparties.reached row hrow
  · intro pre r post heq hpost
    rw [heq] at hsays
    obtain ⟨pre', row, post', hrows, -, hrr, hpost'⟩ := forall₂_split_left hsays
    rw [← heq] at hrows
    obtain ⟨o, ho, hbills⟩ := hobligations.billed row (by rw [hrows]; simp)
    refine ⟨o, ho, hrr.invoiceRef ▸ hbills, or_iff_not_imp_left.mpr fun hunpaid => ?_⟩
    have hset := fixed_iff_last.mp (hobligations.fixed o ho) pre' row post' hrows ⟨hbills, hunpaid⟩ ?_
    · rw [← hrr.amountPaise, ← hrr.dueDate]
      exact ⟨(congrArg Obligation.amountPaise hset).symm, (congrArg Obligation.dueDate hset).symm⟩
    · rintro row' hrow' ⟨hbills', -⟩
      obtain ⟨r', hr', hrr'⟩ := forall₂_mem_right hpost' hrow'
      refine hpost r' hr' ?_
      rw [← hrr'.invoiceRef, ← hrr.invoiceRef]
      exact hbills'.2.symm.trans hbills.2

/-- **A call that returns has applied everything.** -/
theorem applied_of_returns (hdb : Constraints s.db) (h : Imports u uuid s c db') : Applied u c s {
    db := db'
    payables := c.body.payables.foldl (fun t p => putPayable c.tenantId c.today p t) s.payables
    tallySyncs := s.tallySyncs ++ [c.row] } := by
  refine ⟨(applied_receivables hdb h).1, (applied_receivables hdb h).2, ?_, ?_, rfl⟩
  · intro pre p post heq hpost
    dsimp only
    rw [heq, List.foldl_append, List.foldl_cons, puts_other]
    · obtain ⟨q, hq, hbilled, -⟩ := @put_billed c.tenantId c.today _ p
      exact ⟨q, hq, hbilled.amountPaise, hbilled.msmeClass, hbilled.agreement45⟩
    · intro p' hp' hkey
      exact hpost p' hp' (Prod.mk.inj hkey).2.symm
  · intro p hp hpaid
    obtain ⟨pre, post, heq⟩ := List.append_of_mem hp
    dsimp only
    rw [heq, List.foldl_append, List.foldl_cons]
    obtain ⟨q, hq, -, hq'⟩ := @put_billed c.tenantId c.today _ p
    obtain ⟨q', hq₂, hpaid'⟩ := puts_paid hq (hq' hpaid)
    exact ⟨q', hq₂, by rw [hpaid']; exact hq' hpaid⟩

/-- **The first transaction leaves the ledger as it is** exactly if the receivables say what the ledger has. -/
theorem same_iff_known (hdb : Constraints s.db) (h : Imports u uuid s c db') :
    ({ s with db := db' } : Store).tables = s.tables ↔ Known u s c := by
  have hsays := @sheetRows_say u uuid (ids s.db) c.body.receivables
  constructor
  · intro hsame
    obtain ⟨hps, hos, -⟩ : db'.parties = s.db.parties ∧ db'.obligations = s.db.obligations ∧ _ := by
      simpa only [Store.tables, Prod.mk.injEq] using hsame
    obtain ⟨hparties, hobligations⟩ := of_importAll hdb h
    rw [hps] at hparties hobligations
    rw [hos] at hobligations
    refine ⟨?_, ?_, ?_, ?_⟩
    · have happlied := (applied_receivables hdb h).1
      rwa [hps] at happlied
    · intro r hr
      obtain ⟨row, hrow, hrr⟩ := forall₂_mem_left hsays hr
      rw [← hrr.invoiceRef]
      exact hobligations.billed row hrow
    · intro pre r post heq hpost hgstin p hp hreaches
      rw [heq] at hsays
      obtain ⟨pre', row, post', hrows, -, hrr, hpost'⟩ := forall₂_split_left hsays
      rw [← heq] at hrows
      have hset := fixed_iff_last.mp (hparties.fixed p hp) pre' row post' hrows
        ⟨by rwa [hrr.phone], by rwa [hrr.gstin]⟩ ?_
      · rw [← hrr.gstin]
        exact (congrArg Party.gstin hset).symm
      · rintro row' hrow' ⟨hreaches', hgstin'⟩
        obtain ⟨r', hr', hrr'⟩ := forall₂_mem_right hpost' hrow'
        rw [hrr'.gstin, hpost r' hr' ?_] at hgstin'
        · cases hgstin'
        · rw [hrr'.phone] at hreaches'
          exact String.ofList_injective (hreaches'.2.symm.trans hreaches.2)
    · intro pre r post heq hpost o ho hbills hunpaid
      rw [heq] at hsays
      obtain ⟨pre', row, post', hrows, -, hrr, hpost'⟩ := forall₂_split_left hsays
      rw [← heq] at hrows
      have hset := fixed_iff_last.mp (hobligations.fixed o ho) pre' row post' hrows
        ⟨by rwa [hrr.invoiceRef], hunpaid⟩ ?_
      · rw [← hrr.amountPaise, ← hrr.dueDate]
        exact ⟨(congrArg Obligation.amountPaise hset).symm, (congrArg Obligation.dueDate hset).symm⟩
      · rintro row' hrow' ⟨hbills', -⟩
        obtain ⟨r', hr', hrr'⟩ := forall₂_mem_right hpost' hrow'
        refine hpost r' hr' ?_
        rw [← hrr'.invoiceRef]
        exact hbills'.2.symm.trans hbills.2
  · intro hknown
    have hall : importAll c.tenantId c.now (sheetRows u uuid (ids s.db) c.body.receivables) s.db = _ :=
      importAll_known hdb (amounts_of_importAll h) ?_ ?_
    · have hparties : s.db.parties.map (writeAll (taxIds c.tenantId) (sheetRows u uuid (ids s.db) c.body.receivables)) =
          s.db.parties := by
        conv_rhs => rw [← List.map_id' s.db.parties]
        refine List.map_congr_left fun p hp => fixed_iff_last.mpr ?_
        rintro pre row post hrows ⟨hreaches, hgstin⟩ hpost
        rw [hrows] at hsays
        obtain ⟨pre', r, post', heq, -, hrr, hpost'⟩ := forall₂_split_right hsays
        have hgot := hknown.taxIds pre' r post' heq ?_ (hrr.gstin ▸ hgstin) p hp (hrr.phone ▸ hreaches)
        · show { p with gstin := row.gstin } = p
          rw [hrr.gstin, ← hgot]
        · intro r' hr' hphone
          obtain ⟨row', hrow', hrr'⟩ := forall₂_mem_left hpost' hr'
          have hnot := hpost row' hrow'
          by_contra hsome
          refine hnot ⟨?_, ?_⟩
          · rw [hrr'.phone, hphone, ← hrr.phone]
            exact hreaches
          · rw [hrr'.gstin]
            exact Option.isSome_iff_ne_none.mpr hsome
      have hobligations : s.db.obligations.map
          (writeAll (invoices c.tenantId) (sheetRows u uuid (ids s.db) c.body.receivables)) = s.db.obligations := by
        conv_rhs => rw [← List.map_id' s.db.obligations]
        refine List.map_congr_left fun o ho => fixed_iff_last.mpr ?_
        rintro pre row post hrows ⟨hbills, hunpaid⟩ hpost
        rw [hrows] at hsays
        obtain ⟨pre', r, post', heq, -, hrr, hpost'⟩ := forall₂_split_right hsays
        have hgot := hknown.invoices pre' r post' heq ?_ o ho (hrr.invoiceRef ▸ hbills) hunpaid
        · show { o with amountPaise := row.amountPaise, dueDate := row.dueDate } = o
          rw [hrr.amountPaise, hrr.dueDate, ← hgot.1, ← hgot.2]
        · intro r' hr' href
          obtain ⟨row', hrow', hrr'⟩ := forall₂_mem_left hpost' hr'
          refine hpost row' hrow' ⟨?_, hunpaid⟩
          rw [hrr'.invoiceRef, href, ← hrr.invoiceRef]
          exact hbills
      rw [hparties, hobligations] at hall
      have hdb' : db' = s.db := Option.some.inj (h.symm.trans hall)
      rw [hdb']
    · intro row hrow
      obtain ⟨r, hr, hrr⟩ := forall₂_mem_right hsays hrow
      rw [hrr.phone]
      exact hknown.parties r hr
    · intro row hrow
      obtain ⟨r, hr, hrr⟩ := forall₂_mem_right hsays hrow
      rw [hrr.invoiceRef]
      exact hknown.obligations r hr

theorem known_of_nil (h : c.body.receivables = []) : Known u s c := by
  refine ⟨by simp [h], by simp [h], ?_, ?_⟩
  · intro pre r post heq
    simp [h] at heq
  · intro pre r post heq
    simp [h] at heq

/-- **One call is all or nothing exactly if it is settled.** -/
theorem allOrNothing_iff (hdb : Constraints s.db) : AllOrNothing u uuid s c ↔ Settled u s c := by
  unfold AllOrNothing
  generalize hends : applySync u uuid c s = x
  have h := ends_applySync u uuid s c
  rw [hends] at h
  cases h with
  | first hrows h => exact iff_of_true (Or.inr ⟨rfl, rfl⟩) (Or.inr (Or.inl h))
  | second himport hfirst h =>
    have hsame := same_iff_known hdb himport
    constructor
    · rintro (⟨hreturns, -⟩ | ⟨-, hleft⟩)
      · cases hreturns
      · exact Or.inr (Or.inr (Or.inr (hsame.mp hleft)))
    · rintro (hnil | hfails | hgood | hknown)
      · exact Or.inr ⟨rfl, hsame.mpr (known_of_nil hnil)⟩
      · by_cases hrows : c.body.receivables = []
        · exact Or.inr ⟨rfl, hsame.mpr (known_of_nil hrows)⟩
        · exact absurd hfails (hfirst hrows)
      · exact absurd h hgood
      · exact Or.inr ⟨rfl, hsame.mpr hknown⟩
  | returns himport h =>
    exact iff_of_true (Or.inl ⟨rfl, applied_of_returns hdb himport⟩) (Or.inr (Or.inr (Or.inl h)))

/-- **A bill that is paid stays paid**, whatever fails. -/
theorem keepsPaid_step : KeepsPaid s (step u uuid s c) := by
  intro k p hp hpaid
  unfold step
  generalize hends : applySync u uuid c s = x
  have h := ends_applySync u uuid s c
  rw [hends] at h
  cases h with
  | first hrows h => exact ⟨p, hp, rfl⟩
  | second himport hfirst h => exact ⟨p, hp, rfl⟩
  | returns himport h => exact puts_paid hp hpaid

theorem constraints_step (hdb : Constraints s.db) : Constraints (step u uuid s c).db := by
  unfold step
  generalize hends : applySync u uuid c s = x
  have h := ends_applySync u uuid s c
  rw [hends] at h
  have himported : ∀ db', Imports u uuid s c db' → Constraints db' := by
    intro db' himport
    obtain ⟨hps, hos⟩ := of_importAll hdb himport
    exact ⟨hps.ids, hps.phones, hos.ids, hos.refs, hos.foreign⟩
  cases h with
  | first hrows h => exact hdb
  | second himport hfirst h => exact himported _ himport
  | returns himport h => exact himported _ himport

end Call

/-! ### Runs -/

theorem KeepsPaid.refl (s : Store) : KeepsPaid s s := fun _ p hp _ => ⟨p, hp, rfl⟩

theorem KeepsPaid.trans {s s' s'' : Store} (h : KeepsPaid s s') (h' : KeepsPaid s' s'') : KeepsPaid s s'' := by
  intro k p hp hpaid
  obtain ⟨p', hp', heq⟩ := h k p hp hpaid
  obtain ⟨p'', hp'', heq'⟩ := h' k p' hp' (heq ▸ hpaid)
  exact ⟨p'', hp'', heq'.trans heq⟩

/-- **When syncs are all or nothing.** In a run of syncs on any ledger, with errors of the database anywhere, each
sync is all or nothing and no bill becomes unpaid later on, exactly if each sync is settled. -/
theorem tallySync_iff (u : Unicode) (uuid : Uuid) {s : Store} (hdb : Constraints s.db) (cs : List Sync) :
    (Along (step u uuid) (AllOrNothing u uuid) s cs ∧ ∀ pre mid post, cs = pre ++ mid ++ post →
      KeepsPaid (run (step u uuid) s pre) (run (step u uuid) s (pre ++ mid))) ↔
        Along (step u uuid) (Settled u) s cs := by
  have hpaid : ∀ pre mid post, cs = pre ++ mid ++ post →
      KeepsPaid (run (step u uuid) s pre) (run (step u uuid) s (pre ++ mid)) := by
    refine (stretches_iff KeepsPaid.refl fun _ _ _ => KeepsPaid.trans).mpr ?_
    have hany : Along (step u uuid) (fun _ _ => True) s cs := along_of_forall fun _ _ => trivial
    exact hany.mono fun s c _ => keepsPaid_step
  rw [and_iff_left hpaid]
  exact along_iff_of_inv (I := fun s : Store => Constraints s.db) (fun s c h _ => constraints_step h)
    (fun s c h => allOrNothing_iff h) hdb

/-- Ids that are longer than those that there are. -/
def longer : Uuid where
  next taken := String.ofList (List.replicate (taken.map String.length).sum.succ 'x')
  next_new taken h := by
    have hle := List.le_sum_of_mem (List.mem_map_of_mem (f := String.length) h)
    simp at hle

/-- One invoice of a customer, and one bill of a supplier. -/
def oneOfEach (supplier : String) (fails : Point → Bool) : Sync where
  tenantId := "shop"
  deviceId := some "pc"
  body := {
    receivables := [{
      party := "Ravi Traders", phone := "9198000001", invoiceRef := "INV-1", dueDate := 10
      amountRupees := ⟨500, by norm_num, by norm_num⟩ }]
    payables := [{
      supplier, billRef := "B-1", billDate := 5, amountRupees := ⟨200, by norm_num, by norm_num⟩ }] }
  now := 0
  today := 20
  fails := fails

theorem constraints_empty : Constraints {} := by
  refine ⟨List.nodup_nil, List.nodup_nil, List.nodup_nil, List.nodup_nil, ?_⟩
  intro o ho
  cases ho

/-- Nothing fails. -/
theorem tallySync_iff_ok : Along (step ascii longer) (AllOrNothing ascii longer) {}
    [oneOfEach "Acme" fun _ => false] := by
  refine ((tallySync_iff ascii longer (s := {}) constraints_empty [oneOfEach "Acme" fun _ => false]).mpr ?_).1
  refine ⟨Or.inr (Or.inr (Or.inl ?_)), trivial⟩
  simp [SecondFails, oneOfEach]

/-- The name of the supplier has a character that the database does not take. -/
def nul : Sync := oneOfEach "Acme\x00" fun
  | .payable 0 => true
  | _ => false

/-- The invoice is in the ledger, and the bill is not. -/
theorem receivables_left : ¬ ∀ (u : Unicode) (uuid : Uuid) (s : Store) (c : Sync), Constraints s.db →
    AllOrNothing u uuid s c := by
  intro h
  rcases (allOrNothing_iff constraints_empty).mp (h ascii longer {} nul constraints_empty) with
    hnil | hfirst | hsecond | hknown
  · cases hnil
  · rcases hfirst with h | h | ⟨pre, r, post, -, h | h | ⟨h, -⟩⟩
    all_goals cases h
  · exact hsecond (Or.inr (Or.inr (Or.inr ⟨0, by decide, rfl⟩)))
  · obtain ⟨p, hp, -⟩ := hknown.parties _ (List.mem_singleton_self _)
    cases hp

end Smara.Server.TallySync
