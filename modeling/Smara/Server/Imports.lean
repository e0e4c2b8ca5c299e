import Smara.Lib.Overwrite
import Smara.Server.Ledger

/-! # Whose debt a sheet says it is

A row of a sheet names a party by its phone, and an invoice by its number. The parties of a tenant have distinct
phones, but the obligations have distinct numbers, whosever they are: a row whose number another party has
already used changes the obligation of that party.

* `Constraints`: the keys of the tables.
* `Imported`: what an import is for.
* `Separate`: no number of an invoice is shared.
* `imported_iff`: an import does what it is for exactly if no number is shared.
* `importAll_again`: to import a sheet again changes nothing. -/

namespace Smara.Server.Ledger

open Lib.Overwrite Lib.Table Server.Schema
open TaskStore.Schema (Time)

/-! ### The tables -/

/-- The keys of the tables `parties` and `obligations`. -/
structure Constraints (db : Db) : Prop where
  partyIds : Keyed Party.id db.parties
  phones : Keyed (fun p => (p.tenantId, p.whatsappPhone)) db.parties
  obligationIds : Keyed Obligation.id db.obligations
  refs : Keyed (fun o => (o.tenantId, o.invoiceRef)) db.obligations
  foreign : ∀ o ∈ db.obligations, ∃ p ∈ db.parties, p.id = o.partyId

def Reaches (tenantId : Id) (phone : String) (p : Party) : Prop := p.tenantId = tenantId ∧ p.whatsappPhone = phone

instance (tenantId : Id) (phone : String) : DecidablePred (Reaches tenantId phone) :=
  fun _ => inferInstanceAs (Decidable (_ ∧ _))

def Owes (parties : List Party) (tenantId : Id) (phone : String) (o : Obligation) : Prop :=
  ∃ p ∈ parties, p.id = o.partyId ∧ Reaches tenantId phone p

def Bills (tenantId : Id) (invoiceRef : String) (o : Obligation) : Prop :=
  o.tenantId = tenantId ∧ o.invoiceRef = invoiceRef

instance (tenantId : Id) (invoiceRef : String) : DecidablePred (Bills tenantId invoiceRef) :=
  fun _ => inferInstanceAs (Decidable (_ ∧ _))

def lastRow (phone invoiceRef : String) (rows : List SheetRow) : Option SheetRow :=
  (rows.filter fun r => r.phone = phone ∧ r.invoiceRef = invoiceRef).getLast?

def SameSheet (rows rows' : List SheetRow) : Prop :=
  List.Forall₂ (fun r r' => r' = { r with partyId := r'.partyId, obligationId := r'.obligationId }) rows rows'

/-- **What an import is for.** -/
structure Imported (tenantId : Id) (rows : List SheetRow) (db db' : Db) : Prop where
  /-- the invoice of each row, if its party has not paid it already, is an obligation of the party -/
  owed : ∀ r ∈ rows,
    (¬ ∃ o ∈ db.obligations, Bills tenantId r.invoiceRef o ∧ Owes db.parties tenantId r.phone o ∧ o.state = .paid) →
      ∃ o ∈ db'.obligations, Bills tenantId r.invoiceRef o ∧ Owes db'.parties tenantId r.phone o ∧
        some o.amountPaise = (lastRow r.phone r.invoiceRef rows).map SheetRow.amountPaise
  /-- the other parties have the obligations that they had -/
  others : ∀ o, (∀ r ∈ rows, ¬ Owes db'.parties tenantId r.phone o) →
    (o ∈ db'.obligations ↔ o ∈ db.obligations)
  /-- the import may be repeated -/
  again : ∀ rows', SameSheet rows rows' → ∀ now, importAll tenantId now rows' db' = some db'

/-- No number is shared: neither by rows with different phones, nor with an obligation of another party. -/
structure Separate (tenantId : Id) (rows : List SheetRow) (db : Db) : Prop where
  sheet : ∀ r ∈ rows, ∀ r' ∈ rows, r.invoiceRef = r'.invoiceRef → r.phone = r'.phone
  ledger : ∀ r ∈ rows, ∀ o ∈ db.obligations, Bills tenantId r.invoiceRef o → Owes db.parties tenantId r.phone o

/-! ### One row -/

def taxIds (tenantId : Id) : Writes SheetRow Party where
  hits r p := Reaches tenantId r.phone p ∧ r.gstin.isSome
  set r p := { p with gstin := r.gstin }
  hits_set _ _ _ := Iff.rfl
  set_set _ _ _ := rfl

def invoices (tenantId : Id) : Writes SheetRow Obligation where
  hits r o := Bills tenantId r.invoiceRef o ∧ o.state ≠ .paid
  set r o := { o with amountPaise := r.amountPaise, dueDate := r.dueDate }
  hits_set _ _ _ := Iff.rfl
  set_set _ _ _ := rfl

instance (tenantId : Id) (r : SheetRow) (p : Party) : Decidable ((taxIds tenantId).hits r p) :=
  inferInstanceAs (Decidable (_ ∧ _))

instance (tenantId : Id) (r : SheetRow) (o : Obligation) : Decidable ((invoices tenantId).hits r o) :=
  inferInstanceAs (Decidable (_ ∧ _))

def newParty (tenantId : Id) (r : SheetRow) : Party where
  id := r.partyId
  tenantId := tenantId
  canonicalName := r.party
  whatsappPhone := r.phone
  gstin := r.gstin

def newObligation (tenantId partyId : Id) (now : Time) (r : SheetRow) : Obligation where
  id := r.obligationId
  tenantId := tenantId
  partyId := partyId
  invoiceRef := r.invoiceRef
  amountPaise := r.amountPaise
  dueDate := r.dueDate
  nextFollowupAt := some (max (midnight r.dueDate) now)
  state := .active

variable {tenantId : Id} {now : Time} {r : SheetRow} {rows done : List SheetRow} {db db₀ db' : Db} {partyId : Id}
  {ps ps₀ : List Party} {os os₀ : List Obligation}

/-- What `importParty` does. -/
inductive PartyStep (tenantId : Id) (r : SheetRow) (ps : List Party) : Id → List Party → Prop
  | known {p : Party} (hp : p ∈ ps) (hreaches : Reaches tenantId r.phone p) :
    PartyStep tenantId r ps p.id (ps.map (write (taxIds tenantId) r))
  | new (hnew : ∀ p ∈ ps, p.id ≠ r.partyId ∧ ¬ Reaches tenantId r.phone p) :
    PartyStep tenantId r ps r.partyId (ps ++ [newParty tenantId r])

/-- What `importObligation` does. -/
inductive ObligationStep (tenantId partyId : Id) (now : Time) (r : SheetRow) (os : List Obligation) :
    List Obligation → Prop
  | known {o : Obligation} (ho : o ∈ os) (hbills : Bills tenantId r.invoiceRef o) :
    ObligationStep tenantId partyId now r os (os.map (write (invoices tenantId) r))
  | new (hnew : ∀ o ∈ os, o.id ≠ r.obligationId ∧ ¬ Bills tenantId r.invoiceRef o) :
    ObligationStep tenantId partyId now r os (os ++ [newObligation tenantId partyId now r])

theorem updateWhere_party (hids : Keyed Party.id ps) (hphones : Keyed (fun p => (p.tenantId, p.whatsappPhone)) ps)
    {p : Party} (hp : p ∈ ps) (hreaches : Reaches tenantId r.phone p) :
    updateWhere (fun q => q.id = p.id) (fun q => { q with gstin := r.gstin.or q.gstin }) ps =
      ps.map (write (taxIds tenantId) r) := by
  refine List.map_congr_left fun q hq => ?_
  have hiff : q.id = p.id ↔ Reaches tenantId r.phone q := by
    constructor
    · intro hid
      rwa [hids.eq_of_key hq hp hid]
    · intro hq'
      have hkey : (q.tenantId, q.whatsappPhone) = (p.tenantId, p.whatsappPhone) := by
        rw [hq'.1, hq'.2, hreaches.1, hreaches.2]
      rw [hphones.eq_of_key hq hp hkey]
  by_cases hid : q.id = p.id
  · rw [if_pos hid]
    unfold write
    cases hgstin : r.gstin with
    | none =>
      have hnot : ¬ (taxIds tenantId).hits r q := fun h => by simpa [hgstin] using h.2
      rw [if_neg hnot]
      rfl
    | some g =>
      have hhits : (taxIds tenantId).hits r q := ⟨hiff.mp hid, by simp [hgstin]⟩
      rw [if_pos hhits]
      simp [taxIds, hgstin]
  · rw [if_neg hid]
    have hnot : ¬ (taxIds tenantId).hits r q := fun h => hid (hiff.mpr h.1)
    exact (if_neg hnot).symm

theorem updateWhere_obligation (hids : Keyed Obligation.id os)
    (hrefs : Keyed (fun o => (o.tenantId, o.invoiceRef)) os) {o : Obligation} (ho : o ∈ os)
    (hbills : Bills tenantId r.invoiceRef o) :
    updateWhere (fun p => p.id = o.id ∧ p.state ≠ .paid)
      (fun p => { p with amountPaise := r.amountPaise, dueDate := r.dueDate }) os =
        os.map (write (invoices tenantId) r) := by
  refine List.map_congr_left fun p hp => ?_
  have hiff : p.id = o.id ↔ Bills tenantId r.invoiceRef p := by
    constructor
    · intro hid
      rwa [hids.eq_of_key hp ho hid]
    · intro hp'
      have hkey : (p.tenantId, p.invoiceRef) = (o.tenantId, o.invoiceRef) := by
        rw [hp'.1, hp'.2, hbills.1, hbills.2]
      rw [hrefs.eq_of_key hp ho hkey]
  unfold write
  by_cases hhits : p.id = o.id ∧ p.state ≠ .paid
  · rw [if_pos hhits, if_pos ⟨hiff.mp hhits.1, hhits.2⟩]
    rfl
  · rw [if_neg hhits, if_neg fun h => hhits ⟨hiff.mpr h.1, h.2⟩]

theorem partyStep_of_importParty (h : Constraints db) (hstep : importParty tenantId r db = some (partyId, db')) :
    PartyStep tenantId r db.parties partyId db'.parties ∧ db' = { db with parties := db'.parties } := by
  unfold importParty at hstep
  cases hfind : db.parties.find? fun p => p.tenantId = tenantId ∧ p.whatsappPhone = r.phone with
  | some p =>
    simp only [hfind] at hstep
    obtain ⟨rfl, rfl⟩ := Prod.mk.inj (Option.some.inj hstep)
    have hp : p ∈ db.parties := List.mem_of_find?_eq_some hfind
    have hfound := List.find?_some hfind
    have hreaches : Reaches tenantId r.phone p := of_decide_eq_true hfound
    refine ⟨?_, rfl⟩
    rw [updateWhere_party h.partyIds h.phones hp hreaches]
    exact .known hp hreaches
  | none =>
    simp only [hfind] at hstep
    split_ifs at hstep with hid
    obtain ⟨rfl, rfl⟩ := Prod.mk.inj (Option.some.inj hstep)
    refine ⟨.new fun p hp => ⟨?_, ?_⟩, rfl⟩
    · rw [Option.not_isSome_iff_eq_none, Db.party, lookup_eq_none] at hid
      exact hid p hp
    · exact fun hreaches => List.find?_eq_none.mp hfind p hp (decide_eq_true hreaches)

theorem obligationStep_of_importObligation (hids : Keyed Obligation.id db.obligations)
    (hrefs : Keyed (fun o => (o.tenantId, o.invoiceRef)) db.obligations)
    (hstep : importObligation tenantId partyId now r db = some db') :
    ObligationStep tenantId partyId now r db.obligations db'.obligations ∧ db'.parties = db.parties := by
  unfold importObligation at hstep
  by_cases hamount : r.amountPaise < 0
  · rw [if_pos hamount] at hstep
    cases hstep
  rw [if_neg hamount] at hstep
  cases hfind : db.obligations.find? fun o => o.tenantId = tenantId ∧ o.invoiceRef = r.invoiceRef with
  | some o =>
    simp only [hfind] at hstep
    obtain rfl := Option.some.inj hstep
    have ho : o ∈ db.obligations := List.mem_of_find?_eq_some hfind
    have hfound := List.find?_some hfind
    have hbills : Bills tenantId r.invoiceRef o := of_decide_eq_true hfound
    refine ⟨?_, rfl⟩
    rw [Db.updateObligation, updateWhere_obligation hids hrefs ho hbills]
    exact .known ho hbills
  | none =>
    simp only [hfind] at hstep
    split_ifs at hstep with hid
    obtain rfl := Option.some.inj hstep
    refine ⟨.new fun o ho => ⟨?_, ?_⟩, rfl⟩
    · rw [Option.not_isSome_iff_eq_none, Db.obligation, lookup_eq_none] at hid
      exact hid o ho
    · exact fun hbills => List.find?_eq_none.mp hfind o ho (decide_eq_true hbills)

/-! ### What the rows so far have done -/

def who (p : Party) : Id × Id × String := (p.id, p.tenantId, p.whatsappPhone)

theorem owes_iff {phone : String} {o : Obligation} :
    Owes ps tenantId phone o ↔ (o.partyId, tenantId, phone) ∈ ps.map who := by
  simp only [List.mem_map, who, Prod.mk.injEq]
  rfl

/-- The parties after the rows. -/
structure Parties (tenantId : Id) (done : List SheetRow) (ps₀ ps : List Party) : Prop where
  ids : Keyed Party.id ps
  phones : Keyed (fun p => (p.tenantId, p.whatsappPhone)) ps
  grown : ∃ news, ps.map who = ps₀.map who ++ news
  fixed : ∀ p ∈ ps, Fixed (taxIds tenantId) done p
  reached : ∀ r ∈ done, ∃ p ∈ ps, Reaches tenantId r.phone p

/-- The obligations after the rows, and those of them that are new. -/
structure Obligations (tenantId : Id) (done : List SheetRow) (ps : List Party) (os₀ os : List Obligation) : Prop where
  ids : Keyed Obligation.id os
  refs : Keyed (fun o => (o.tenantId, o.invoiceRef)) os
  grown : ∃ news, os = os₀.map (writeAll (invoices tenantId) done) ++ news ∧ ∀ o ∈ news, o.state = .active ∧
    ∃ r ∈ done, Bills tenantId r.invoiceRef o ∧ Owes ps tenantId r.phone o
  fixed : ∀ o ∈ os, Fixed (invoices tenantId) done o
  billed : ∀ r ∈ done, ∃ o ∈ os, Bills tenantId r.invoiceRef o
  foreign : ∀ o ∈ os, ∃ p ∈ ps, p.id = o.partyId

theorem map_who_write : (ps.map (write (taxIds tenantId) r)).map who = ps.map who := by
  rw [List.map_map]
  refine List.map_congr_left fun p _ => ?_
  dsimp only [Function.comp, write]
  split_ifs <;> rfl

theorem reaches_write {phone : String} {p : Party} :
    Reaches tenantId phone (write (taxIds tenantId) r p) ↔ Reaches tenantId phone p := by
  unfold write
  split_ifs <;> exact Iff.rfl

theorem keyed_map_write {κ α ρ : Type*} {key : ρ → κ} {w : Writes α ρ} [∀ a r, Decidable (w.hits a r)] {a : α}
    {t : List ρ} (hkey : ∀ r, key (w.set a r) = key r) (h : Keyed key t) : Keyed key (t.map (write w a)) := by
  have heq : (t.map (write w a)).map key = t.map key := by
    rw [List.map_map]
    refine List.map_congr_left fun r _ => ?_
    dsimp only [Function.comp, write]
    split_ifs
    · exact hkey r
    · rfl
  rw [Keyed, heq]
  exact h

theorem keyed_snoc {κ ρ : Type*} {key : ρ → κ} {t : List ρ} {r : ρ} (h : Keyed key t) (hr : ∀ r' ∈ t, key r' ≠ key r) :
    Keyed key (t ++ [r]) := by
  refine keyed_append.mpr ⟨h, List.nodup_singleton _, fun r' hr' r'' hr'' => ?_⟩
  rw [List.mem_singleton.mp hr'']
  exact hr r' hr'

theorem Parties.step (h : Parties tenantId done ps₀ ps) {ps' : List Party}
    (hstep : PartyStep tenantId r ps partyId ps') :
    Parties tenantId (done ++ [r]) ps₀ ps' ∧ (partyId, tenantId, r.phone) ∈ ps'.map who ∧
      ∃ news, ps'.map who = ps.map who ++ news := by
  obtain ⟨news, hnews⟩ := h.grown
  cases hstep with
  | @known p hp hreaches =>
    have hmem : (p.id, tenantId, r.phone) ∈ ps.map who :=
      List.mem_map.mpr ⟨p, hp, by rw [who, hreaches.1, hreaches.2]⟩
    have hreached : ∃ p ∈ ps.map (write (taxIds tenantId) r), Reaches tenantId r.phone p :=
      ⟨_, List.mem_map_of_mem hp, reaches_write.mpr hreaches⟩
    refine ⟨⟨keyed_map_write (fun _ => rfl) h.ids, keyed_map_write (fun _ => rfl) h.phones, ⟨news, ?_⟩, ?_, ?_⟩,
      ?_, ⟨[], ?_⟩⟩
    · rw [map_who_write, hnews]
    · rintro p' hp'
      obtain ⟨q, hq, rfl⟩ := List.mem_map.mp hp'
      exact (h.fixed q hq).snoc
    · intro r' hr'
      rcases List.mem_append.mp hr' with hr' | hr'
      · obtain ⟨q, hq, hq'⟩ := h.reached r' hr'
        exact ⟨_, List.mem_map_of_mem hq, reaches_write.mpr hq'⟩
      · rwa [List.mem_singleton.mp hr']
    · rwa [map_who_write]
    · rw [map_who_write, List.append_nil]
  | new hnew =>
    have hmap : (ps ++ [newParty tenantId r]).map who = ps.map who ++ [(r.partyId, tenantId, r.phone)] := by
      rw [List.map_append]
      rfl
    have hlast : newParty tenantId r ∈ ps ++ [newParty tenantId r] := by simp
    have hreaches : Reaches tenantId r.phone (newParty tenantId r) := ⟨rfl, rfl⟩
    refine ⟨⟨keyed_snoc h.ids fun p hp => (hnew p hp).1, keyed_snoc h.phones fun p hp heq => ?_,
      ⟨news ++ [(r.partyId, tenantId, r.phone)], ?_⟩, ?_, ?_⟩, ?_, ⟨_, hmap⟩⟩
    · obtain ⟨htenant, hphone⟩ := Prod.mk.inj heq
      exact (hnew p hp).2 ⟨htenant, hphone⟩
    · rw [hmap, hnews, List.append_assoc]
    · intro p hp
      rcases List.mem_append.mp hp with hp | hp
      · have hfixed := (h.fixed p hp).snoc (a := r)
        have hnot : ¬ (taxIds tenantId).hits r p := fun hhits => (hnew p hp).2 hhits.1
        rwa [write, if_neg hnot] at hfixed
      · obtain rfl := List.mem_singleton.mp hp
        by_cases hgstin : r.gstin.isSome
        · exact fixed_of_set ⟨hreaches, hgstin⟩ rfl
        · refine writeAll_of_not_hits fun r' hr' hhits => ?_
          rcases List.mem_append.mp hr' with hr' | hr'
          · obtain ⟨q, hq, hreach⟩ := h.reached r' hr'
            have hphone : r.phone = r'.phone := hhits.1.2
            exact (hnew q hq).2 (hphone ▸ hreach)
          · rw [List.mem_singleton.mp hr'] at hhits
            exact hgstin hhits.2
    · intro r' hr'
      rcases List.mem_append.mp hr' with hr' | hr'
      · obtain ⟨q, hq, hq'⟩ := h.reached r' hr'
        exact ⟨q, List.mem_append_left _ hq, hq'⟩
      · rw [List.mem_singleton.mp hr']
        exact ⟨_, hlast, hreaches⟩
    · rw [hmap]
      simp

theorem Owes.mono {phone : String} {o : Obligation} {ps' : List Party} (h : Owes ps tenantId phone o)
    (hgrown : ∃ news, ps'.map who = ps.map who ++ news) : Owes ps' tenantId phone o := by
  obtain ⟨news, hnews⟩ := hgrown
  rw [owes_iff] at h ⊢
  rw [hnews]
  exact List.mem_append_left _ h

theorem foreign_mono {id : Id} {ps' : List Party} (h : ∃ p ∈ ps, p.id = id)
    (hgrown : ∃ news, ps'.map who = ps.map who ++ news) : ∃ p ∈ ps', p.id = id := by
  obtain ⟨news, hnews⟩ := hgrown
  obtain ⟨p, hp, rfl⟩ := h
  have hmem : who p ∈ ps'.map who := hnews ▸ List.mem_append_left _ (List.mem_map_of_mem hp)
  obtain ⟨p', hp', heq⟩ := List.mem_map.mp hmem
  exact ⟨p', hp', (Prod.mk.inj heq).1⟩

theorem bills_write {invoiceRef : String} {o : Obligation} :
    Bills tenantId invoiceRef (write (invoices tenantId) r o) ↔ Bills tenantId invoiceRef o := by
  unfold write
  split_ifs <;> exact Iff.rfl

@[simp] theorem partyId_write {o : Obligation} : (write (invoices tenantId) r o).partyId = o.partyId := by
  unfold write
  split_ifs <;> rfl

@[simp] theorem state_write {o : Obligation} : (write (invoices tenantId) r o).state = o.state := by
  unfold write
  split_ifs <;> rfl

theorem map_writeAll_snoc : (os.map (writeAll (invoices tenantId) done)).map (write (invoices tenantId) r) =
    os.map (writeAll (invoices tenantId) (done ++ [r])) := by
  rw [List.map_map]
  exact List.map_congr_left fun o _ => writeAll_snoc.symm

theorem Obligations.step (h : Obligations tenantId done ps os₀ os) {ps' : List Party}
    (hgrown : ∃ news, ps'.map who = ps.map who ++ news) (hparty : (partyId, tenantId, r.phone) ∈ ps'.map who)
    {os' : List Obligation} (hstep : ObligationStep tenantId partyId now r os os') :
    Obligations tenantId (done ++ [r]) ps' os₀ os' := by
  obtain ⟨news, hnews, hof⟩ := h.grown
  cases hstep with
  | @known o ho hbills =>
    refine ⟨keyed_map_write (fun _ => rfl) h.ids, keyed_map_write (fun _ => rfl) h.refs,
      ⟨news.map (write (invoices tenantId) r), ?_, ?_⟩, ?_, ?_, ?_⟩
    · rw [hnews, List.map_append, map_writeAll_snoc]
    · rintro o' ho'
      obtain ⟨q, hq, rfl⟩ := List.mem_map.mp ho'
      obtain ⟨hstate, r', hr', hbills', howes⟩ := hof q hq
      refine ⟨state_write.trans hstate, r', List.mem_append_left _ hr', bills_write.mpr hbills', ?_⟩
      rw [owes_iff, partyId_write, ← owes_iff]
      exact howes.mono hgrown
    · rintro o' ho'
      obtain ⟨q, hq, rfl⟩ := List.mem_map.mp ho'
      exact (h.fixed q hq).snoc
    · intro r' hr'
      rcases List.mem_append.mp hr' with hr' | hr'
      · obtain ⟨q, hq, hq'⟩ := h.billed r' hr'
        exact ⟨_, List.mem_map_of_mem hq, bills_write.mpr hq'⟩
      · rw [List.mem_singleton.mp hr']
        exact ⟨_, List.mem_map_of_mem ho, bills_write.mpr hbills⟩
    · rintro o' ho'
      obtain ⟨q, hq, rfl⟩ := List.mem_map.mp ho'
      rw [partyId_write]
      exact foreign_mono (h.foreign q hq) hgrown
  | new hnew =>
    have hbills : Bills tenantId r.invoiceRef (newObligation tenantId partyId now r) := ⟨rfl, rfl⟩
    have hlast : newObligation tenantId partyId now r ∈ os ++ [newObligation tenantId partyId now r] := by simp
    have hnot : ∀ o ∈ os, ¬ (invoices tenantId).hits r o := fun o ho hhits => (hnew o ho).2 hhits.1
    refine ⟨keyed_snoc h.ids fun o ho => (hnew o ho).1, keyed_snoc h.refs fun o ho heq => ?_,
      ⟨news ++ [newObligation tenantId partyId now r], ?_, ?_⟩, ?_, ?_, ?_⟩
    · obtain ⟨htenant, href⟩ := Prod.mk.inj heq
      exact (hnew o ho).2 ⟨htenant, href⟩
    · rw [← map_writeAll_snoc, ← List.append_assoc]
      congr 1
      rw [hnews]
      congr 1
      have hself : ∀ o ∈ os₀.map (writeAll (invoices tenantId) done), write (invoices tenantId) r o = o := by
        intro o ho
        exact if_neg (hnot o (hnews ▸ List.mem_append_left _ ho))
      exact ((List.map_congr_left hself).trans (List.map_id' _)).symm
    · intro o ho
      rcases List.mem_append.mp ho with ho | ho
      · obtain ⟨hstate, r', hr', hbills', howes⟩ := hof o ho
        exact ⟨hstate, r', List.mem_append_left _ hr', hbills', howes.mono hgrown⟩
      · obtain rfl := List.mem_singleton.mp ho
        exact ⟨rfl, r, by simp, hbills, owes_iff.mpr hparty⟩
    · intro o ho
      rcases List.mem_append.mp ho with ho | ho
      · have hfixed := (h.fixed o ho).snoc (a := r)
        rwa [write, if_neg (hnot o ho)] at hfixed
      · obtain rfl := List.mem_singleton.mp ho
        exact fixed_of_set ⟨hbills, fun hpaid => by cases hpaid⟩ rfl
    · intro r' hr'
      rcases List.mem_append.mp hr' with hr' | hr'
      · obtain ⟨o, ho, ho'⟩ := h.billed r' hr'
        exact ⟨o, List.mem_append_left _ ho, ho'⟩
      · rw [List.mem_singleton.mp hr']
        exact ⟨_, hlast, hbills⟩
    · intro o ho
      rcases List.mem_append.mp ho with ho | ho
      · exact foreign_mono (h.foreign o ho) hgrown
      · obtain rfl := List.mem_singleton.mp ho
        obtain ⟨p, hp, heq⟩ := List.mem_map.mp hparty
        exact ⟨p, hp, (Prod.mk.inj heq).1⟩

theorem importAll_inv (hps : Parties tenantId done db₀.parties db.parties)
    (hos : Obligations tenantId done db.parties db₀.obligations db.obligations)
    (h : importAll tenantId now rows db = some db') :
    Parties tenantId (done ++ rows) db₀.parties db'.parties ∧
      Obligations tenantId (done ++ rows) db'.parties db₀.obligations db'.obligations := by
  induction rows generalizing done db with
  | nil =>
    obtain rfl := Option.some.inj h
    rw [List.append_nil]
    exact ⟨hps, hos⟩
  | cons r rows ih =>
    unfold importAll at h
    cases hparty : importParty tenantId r db with
    | none =>
      rw [hparty] at h
      cases h
    | some x =>
      obtain ⟨partyId, db₁⟩ := x
      rw [hparty] at h
      dsimp only at h
      cases hobligation : importObligation tenantId partyId now r db₁ with
      | none =>
        rw [hobligation] at h
        cases h
      | some db₂ =>
        rw [hobligation] at h
        dsimp only at h
        have hdb : Constraints db := ⟨hps.ids, hps.phones, hos.ids, hos.refs, hos.foreign⟩
        obtain ⟨hp, hdb₁⟩ := partyStep_of_importParty hdb hparty
        have hobligations₁ : db₁.obligations = db.obligations := by rw [hdb₁]
        obtain ⟨ho, hparties₂⟩ := obligationStep_of_importObligation (hobligations₁ ▸ hos.ids)
          (hobligations₁ ▸ hos.refs) hobligation
        rw [hobligations₁] at ho
        obtain ⟨hps₁, hmem, hgrown⟩ := hps.step hp
        have hos₂ := hos.step hgrown hmem ho
        rw [← hparties₂] at hps₁ hos₂
        simpa only [List.append_assoc, List.singleton_append] using ih hps₁ hos₂ h

theorem parties_start (h : Constraints db) : Parties tenantId [] db.parties db.parties :=
  ⟨h.partyIds, h.phones, ⟨[], by simp⟩, fun _ _ => rfl, by simp⟩

theorem obligations_start (h : Constraints db) :
    Obligations tenantId [] db.parties db.obligations db.obligations := by
  refine ⟨h.obligationIds, h.refs, ⟨[], ?_, by simp⟩, fun _ _ => rfl, by simp, h.foreign⟩
  rw [List.append_nil]
  exact (List.map_id' _).symm

theorem of_importAll (hdb : Constraints db) (h : importAll tenantId now rows db = some db') :
    Parties tenantId rows db.parties db'.parties ∧
      Obligations tenantId rows db'.parties db.obligations db'.obligations := by
  simpa only [List.nil_append] using importAll_inv (parties_start hdb) (obligations_start hdb) h

/-! ### A sheet that is imported again -/

theorem importParty_known (hdb : Constraints db) (hr : ∃ p ∈ db.parties, Reaches tenantId r.phone p) :
    ∃ partyId, importParty tenantId r db =
      some (partyId, { db with parties := db.parties.map (write (taxIds tenantId) r) }) := by
  unfold importParty
  cases hfind : db.parties.find? fun p => p.tenantId = tenantId ∧ p.whatsappPhone = r.phone with
  | none =>
    obtain ⟨p, hp, hreaches⟩ := hr
    exact absurd (decide_eq_true hreaches) (List.find?_eq_none.mp hfind p hp)
  | some p =>
    have hfound := List.find?_some hfind
    refine ⟨p.id, ?_⟩
    dsimp only
    rw [updateWhere_party hdb.partyIds hdb.phones (List.mem_of_find?_eq_some hfind) (of_decide_eq_true hfound)]

theorem importObligation_known (hdb : Constraints db) (hamount : 0 ≤ r.amountPaise)
    (hr : ∃ o ∈ db.obligations, Bills tenantId r.invoiceRef o) :
    importObligation tenantId partyId now r db =
      some { db with obligations := db.obligations.map (write (invoices tenantId) r) } := by
  unfold importObligation
  rw [if_neg (by omega)]
  cases hfind : db.obligations.find? fun o => o.tenantId = tenantId ∧ o.invoiceRef = r.invoiceRef with
  | none =>
    obtain ⟨o, ho, hbills⟩ := hr
    exact absurd (decide_eq_true hbills) (List.find?_eq_none.mp hfind o ho)
  | some o =>
    have hfound := List.find?_some hfind
    dsimp only [Db.updateObligation]
    rw [updateWhere_obligation hdb.obligationIds hdb.refs (List.mem_of_find?_eq_some hfind) (of_decide_eq_true hfound)]

theorem Constraints.written (h : Constraints db) (r : SheetRow) :
    Constraints { db with
      parties := db.parties.map (write (taxIds tenantId) r)
      obligations := db.obligations.map (write (invoices tenantId) r) } := by
  refine ⟨keyed_map_write (fun _ => rfl) h.partyIds, keyed_map_write (fun _ => rfl) h.phones,
    keyed_map_write (fun _ => rfl) h.obligationIds, keyed_map_write (fun _ => rfl) h.refs, ?_⟩
  rintro o' ho'
  obtain ⟨o, ho, rfl⟩ := List.mem_map.mp ho'
  rw [partyId_write]
  exact foreign_mono (h.foreign o ho) ⟨[], by rw [map_who_write, List.append_nil]⟩

theorem map_writeAll_cons {α ρ : Type*} {w : Writes α ρ} [∀ a r, Decidable (w.hits a r)] {a : α} {as : List α}
    {t : List ρ} : (t.map (write w a)).map (writeAll w as) = t.map (writeAll w (a :: as)) := by
  rw [List.map_map]
  rfl

theorem importAll_known (hdb : Constraints db) (hamounts : ∀ r ∈ rows, 0 ≤ r.amountPaise)
    (hreached : ∀ r ∈ rows, ∃ p ∈ db.parties, Reaches tenantId r.phone p)
    (hbilled : ∀ r ∈ rows, ∃ o ∈ db.obligations, Bills tenantId r.invoiceRef o) :
    importAll tenantId now rows db = some { db with
      parties := db.parties.map (writeAll (taxIds tenantId) rows)
      obligations := db.obligations.map (writeAll (invoices tenantId) rows) } := by
  induction rows generalizing db with
  | nil =>
    have hparties : db.parties.map (writeAll (taxIds tenantId) []) = db.parties := List.map_id' _
    have hobligations : db.obligations.map (writeAll (invoices tenantId) []) = db.obligations := List.map_id' _
    rw [hparties, hobligations]
    rfl
  | cons r rows ih =>
    obtain ⟨hreached₀, hreached⟩ := List.forall_mem_cons.mp hreached
    obtain ⟨hbilled₀, hbilled⟩ := List.forall_mem_cons.mp hbilled
    obtain ⟨hamount₀, hamounts⟩ := List.forall_mem_cons.mp hamounts
    obtain ⟨partyId, hparty⟩ := importParty_known hdb hreached₀
    have hdb₁ : Constraints { db with parties := db.parties.map (write (taxIds tenantId) r) } := by
      have hwritten : Constraints { db with
          parties := db.parties.map (write (taxIds tenantId) r)
          obligations := db.obligations.map (write (invoices tenantId) r) } := hdb.written r
      refine ⟨hwritten.partyIds, hwritten.phones, hdb.obligationIds, hdb.refs, fun o ho => ?_⟩
      exact foreign_mono (hdb.foreign o ho) ⟨[], by rw [map_who_write, List.append_nil]⟩
    unfold importAll
    rw [hparty]
    dsimp only
    rw [importObligation_known hdb₁ hamount₀ hbilled₀]
    dsimp only
    rw [ih (hdb.written r) hamounts]
    · dsimp only
      rw [map_writeAll_cons, map_writeAll_cons]
    · intro r' hr'
      obtain ⟨p, hp, hreaches⟩ := hreached r' hr'
      exact ⟨_, List.mem_map_of_mem hp, reaches_write.mpr hreaches⟩
    · intro r' hr'
      obtain ⟨o, ho, hbills⟩ := hbilled r' hr'
      exact ⟨_, List.mem_map_of_mem ho, bills_write.mpr hbills⟩

theorem amounts_of_importAll (h : importAll tenantId now rows db = some db') : ∀ r ∈ rows, 0 ≤ r.amountPaise := by
  induction rows generalizing db with
  | nil => simp
  | cons r rows ih =>
    unfold importAll at h
    cases hparty : importParty tenantId r db with
    | none =>
      rw [hparty] at h
      cases h
    | some x =>
      rw [hparty] at h
      dsimp only at h
      cases hobligation : importObligation tenantId x.1 now r x.2 with
      | none =>
        rw [hobligation] at h
        cases h
      | some db₂ =>
        rw [hobligation] at h
        refine List.forall_mem_cons.mpr ⟨?_, ih h⟩
        by_contra hamount
        unfold importObligation at hobligation
        rw [if_pos (by omega)] at hobligation
        cases hobligation

theorem SameSheet.writeAll {rows' : List SheetRow} (h : SameSheet rows rows') :
    (∀ p, writeAll (taxIds tenantId) rows' p = writeAll (taxIds tenantId) rows p) ∧
      ∀ o, writeAll (invoices tenantId) rows' o = writeAll (invoices tenantId) rows o := by
  induction h with
  | nil => exact ⟨fun _ => rfl, fun _ => rfl⟩
  | cons hr _ ih =>
    rw [hr]
    exact ⟨fun p => ih.1 _, fun o => ih.2 _⟩

theorem SameSheet.exists_of_mem {rows' : List SheetRow} (h : SameSheet rows rows') {r' : SheetRow}
    (hr' : r' ∈ rows') : ∃ r ∈ rows, r'.phone = r.phone ∧ r'.invoiceRef = r.invoiceRef ∧
      r'.amountPaise = r.amountPaise := by
  induction h with
  | nil => simp at hr'
  | cons hr _ ih =>
    rcases List.mem_cons.mp hr' with rfl | hr'
    · rw [hr]
      exact ⟨_, List.mem_cons_self, rfl, rfl, rfl⟩
    · obtain ⟨r, hr, heq⟩ := ih hr'
      exact ⟨r, List.mem_cons_of_mem _ hr, heq⟩

/-- **To import a sheet again changes nothing.** -/
theorem importAll_again (hdb : Constraints db) (h : importAll tenantId now rows db = some db')
    {rows' : List SheetRow} (hsame : SameSheet rows rows') (now' : Time) :
    importAll tenantId now' rows' db' = some db' := by
  obtain ⟨hps, hos⟩ := of_importAll hdb h
  have hdb' : Constraints db' := ⟨hps.ids, hps.phones, hos.ids, hos.refs, hos.foreign⟩
  have hamounts := amounts_of_importAll h
  rw [importAll_known hdb']
  · have hparties : db'.parties.map (writeAll (taxIds tenantId) rows') = db'.parties := by
      conv_rhs => rw [← List.map_id' db'.parties]
      exact List.map_congr_left fun p hp => (hsame.writeAll.1 p).trans (hps.fixed p hp)
    have hobligations : db'.obligations.map (writeAll (invoices tenantId) rows') = db'.obligations := by
      conv_rhs => rw [← List.map_id' db'.obligations]
      exact List.map_congr_left fun o ho => (hsame.writeAll.2 o).trans (hos.fixed o ho)
    rw [hparties, hobligations]
  · intro r' hr'
    obtain ⟨r, hr, -, -, hamount⟩ := hsame.exists_of_mem hr'
    rw [hamount]
    exact hamounts r hr
  · intro r' hr'
    obtain ⟨r, hr, hphone, -⟩ := hsame.exists_of_mem hr'
    rw [hphone]
    exact hps.reached r hr
  · intro r' hr'
    obtain ⟨r, hr, -, href, -⟩ := hsame.exists_of_mem hr'
    rw [href]
    exact hos.billed r hr

/-! ### What an import is for -/

theorem partyId_writeAll {o : Obligation} : (writeAll (invoices tenantId) rows o).partyId = o.partyId := by
  rw [writeAll_of_last]
  split <;> rfl

theorem state_writeAll {o : Obligation} : (writeAll (invoices tenantId) rows o).state = o.state := by
  rw [writeAll_of_last]
  split <;> rfl

theorem bills_writeAll {invoiceRef : String} {o : Obligation} :
    Bills tenantId invoiceRef (writeAll (invoices tenantId) rows o) ↔ Bills tenantId invoiceRef o := by
  rw [writeAll_of_last]
  split <;> exact Iff.rfl

theorem owes_of_grown (hids : Keyed Party.id ps) (hgrown : ∃ news, ps.map who = ps₀.map who ++ news)
    {o : Obligation} (hforeign : ∃ p ∈ ps₀, p.id = o.partyId) {phone : String} (h : Owes ps tenantId phone o) :
    Owes ps₀ tenantId phone o := by
  obtain ⟨news, hnews⟩ := hgrown
  obtain ⟨p₀, hp₀, hid₀⟩ := hforeign
  obtain ⟨p, hp, hid, hreaches⟩ := h
  have hmem : who p₀ ∈ ps.map who := hnews ▸ List.mem_append_left _ (List.mem_map_of_mem hp₀)
  obtain ⟨q, hq, heq⟩ := List.mem_map.mp hmem
  obtain ⟨hqid, htenant, hphone⟩ : q.id = p₀.id ∧ q.tenantId = p₀.tenantId ∧ q.whatsappPhone = p₀.whatsappPhone := by
    simpa [who] using heq
  obtain rfl := hids.eq_of_key hq hp (hqid.trans (hid₀.trans hid.symm))
  exact ⟨p₀, hp₀, hid₀, htenant.symm.trans hreaches.1, hphone.symm.trans hreaches.2⟩

theorem Owes.unique (hids : Keyed Party.id ps) {o : Obligation} {phone phone' : String}
    (h : Owes ps tenantId phone o) (h' : Owes ps tenantId phone' o) : phone = phone' := by
  obtain ⟨p, hp, hid, hreaches⟩ := h
  obtain ⟨p', hp', hid', hreaches'⟩ := h'
  obtain rfl := hids.eq_of_key hp hp' (hid.trans hid'.symm)
  exact hreaches.2.symm.trans hreaches'.2

theorem eq_of_bills (hrefs : Keyed (fun o => (o.tenantId, o.invoiceRef)) os) {o o' : Obligation} (ho : o ∈ os)
    (ho' : o' ∈ os) {invoiceRef : String} (h : Bills tenantId invoiceRef o) (h' : Bills tenantId invoiceRef o') :
    o = o' :=
  hrefs.eq_of_key ho ho' (by rw [h.1, h.2, h'.1, h'.2])

theorem amount_of_fixed {o : Obligation} (hfixed : Fixed (invoices tenantId) rows o) (hpaid : o.state ≠ .paid)
    (hbills : Bills tenantId r.invoiceRef o) (hr : r ∈ rows)
    (hphones : ∀ r' ∈ rows, r'.invoiceRef = r.invoiceRef → r'.phone = r.phone) :
    some o.amountPaise = (lastRow r.phone r.invoiceRef rows).map SheetRow.amountPaise := by
  have hfilter : (rows.filter fun r' => r'.phone = r.phone ∧ r'.invoiceRef = r.invoiceRef) =
      rows.filter fun r' => (invoices tenantId).hits r' o := by
    refine List.filter_congr fun r' hr' => decide_eq_decide.mpr ?_
    constructor
    · rintro ⟨-, href⟩
      exact ⟨⟨hbills.1, hbills.2.trans href.symm⟩, hpaid⟩
    · rintro ⟨hbills', -⟩
      have href : r'.invoiceRef = r.invoiceRef := hbills'.2.symm.trans hbills.2
      exact ⟨hphones r' hr' href, href⟩
  have hne : (rows.filter fun r' => (invoices tenantId).hits r' o) ≠ [] := by
    refine List.ne_nil_of_mem (a := r) ?_
    exact List.mem_filter.mpr ⟨hr, decide_eq_true ⟨hbills, hpaid⟩⟩
  unfold lastRow
  rw [hfilter]
  unfold Fixed at hfixed
  rw [writeAll_of_last] at hfixed
  cases hlast : (rows.filter fun r' => (invoices tenantId).hits r' o).getLast? with
  | none => exact absurd (List.getLast?_eq_none_iff.mp hlast) hne
  | some r' =>
    rw [hlast] at hfixed
    have hamount : r'.amountPaise = o.amountPaise := congrArg Obligation.amountPaise hfixed
    rw [Option.map_some, hamount]

theorem Separate.fixed_of_others (h : Separate tenantId rows db) {o : Obligation} (ho : o ∈ db.obligations)
    (hothers : ∀ r ∈ rows, ¬ Owes db.parties tenantId r.phone o) : writeAll (invoices tenantId) rows o = o := by
  refine writeAll_of_not_hits fun r hr hhits => ?_
  exact hothers r hr (h.ledger r hr o ho hhits.1)

theorem imported_of_separate (hdb : Constraints db) (h : importAll tenantId now rows db = some db')
    (hsep : Separate tenantId rows db) : Imported tenantId rows db db' := by
  obtain ⟨hps, hos⟩ := of_importAll hdb h
  obtain ⟨news, hnews, hof⟩ := hos.grown
  have hmem {o : Obligation} (ho : o ∈ db'.obligations) :
      (∃ o₀ ∈ db.obligations, writeAll (invoices tenantId) rows o₀ = o) ∨ o ∈ news := by
    rw [hnews, List.mem_append, List.mem_map] at ho
    exact ho
  have hold {o : Obligation} (ho : o ∈ db.obligations) : writeAll (invoices tenantId) rows o ∈ db'.obligations := by
    rw [hnews]
    exact List.mem_append_left _ (List.mem_map_of_mem ho)
  refine ⟨fun r hr hunpaid => ?_, fun o hothers => ⟨fun ho => ?_, fun ho => ?_⟩, fun rows' hsame now' =>
    importAll_again hdb h hsame now'⟩
  · -- the obligation with the number is an old one of the party, or a new one
    obtain ⟨o, ho, hbills⟩ := hos.billed r hr
    have hphones : ∀ r' ∈ rows, r'.invoiceRef = r.invoiceRef → r'.phone = r.phone :=
      fun r' hr' href => hsep.sheet r' hr' r hr href
    obtain ⟨howes, hpaid⟩ : Owes db'.parties tenantId r.phone o ∧ o.state ≠ .paid := by
      rcases hmem ho with ⟨o₀, ho₀, rfl⟩ | hnew
      · have howes := hsep.ledger r hr o₀ ho₀ (bills_writeAll.mp hbills)
        refine ⟨?_, fun hpaid => hunpaid ⟨o₀, ho₀, bills_writeAll.mp hbills, howes, ?_⟩⟩
        · rw [owes_iff, partyId_writeAll, ← owes_iff]
          exact howes.mono hps.grown
        · rwa [state_writeAll] at hpaid
      · obtain ⟨hstate, r', hr', hbills', howes⟩ := hof o hnew
        rw [hsep.sheet r' hr' r hr (hbills'.2.symm.trans hbills.2)] at howes
        refine ⟨howes, ?_⟩
        rw [hstate]
        nofun
    exact ⟨o, ho, hbills, howes, amount_of_fixed (hos.fixed o ho) hpaid hbills hr hphones⟩
  · rcases hmem ho with ⟨o₀, ho₀, rfl⟩ | hnew
    · rwa [hsep.fixed_of_others ho₀]
      intro r hr howes
      refine hothers r hr ?_
      rw [owes_iff, partyId_writeAll, ← owes_iff]
      exact howes.mono hps.grown
    · obtain ⟨-, r, hr, -, howes⟩ := hof o hnew
      exact absurd howes (hothers r hr)
  · have hself := hsep.fixed_of_others ho fun r hr howes => hothers r hr (howes.mono hps.grown)
    rw [← hself]
    exact hold ho

theorem separate_of_imported (hdb : Constraints db) (h : importAll tenantId now rows db = some db')
    (himp : Imported tenantId rows db db') : Separate tenantId rows db := by
  obtain ⟨hps, hos⟩ := of_importAll hdb h
  obtain ⟨news, hnews, -⟩ := hos.grown
  have hold {o : Obligation} (ho : o ∈ db.obligations) : writeAll (invoices tenantId) rows o ∈ db'.obligations := by
    rw [hnews]
    exact List.mem_append_left _ (List.mem_map_of_mem ho)
  -- each row has its obligation: the one that is owed, or the one that was paid before
  have hhas : ∀ r ∈ rows, ∃ o ∈ db'.obligations, Bills tenantId r.invoiceRef o ∧
      Owes db'.parties tenantId r.phone o := by
    intro r hr
    by_cases hpaid : ∃ o ∈ db.obligations, Bills tenantId r.invoiceRef o ∧ Owes db.parties tenantId r.phone o ∧
        o.state = .paid
    · obtain ⟨o, ho, hbills, howes, -⟩ := hpaid
      refine ⟨_, hold ho, bills_writeAll.mpr hbills, ?_⟩
      rw [owes_iff, partyId_writeAll, ← owes_iff]
      exact howes.mono hps.grown
    · obtain ⟨o, ho, hbills, howes, -⟩ := himp.owed r hr hpaid
      exact ⟨o, ho, hbills, howes⟩
  refine ⟨fun r hr r' hr' href => ?_, fun r hr o ho hbills => ?_⟩
  · obtain ⟨o, ho, hbills, howes⟩ := hhas r hr
    obtain ⟨o', ho', hbills', howes'⟩ := hhas r' hr'
    obtain rfl := eq_of_bills hos.refs ho ho' hbills (href ▸ hbills')
    exact howes.unique hps.ids howes'
  · obtain ⟨o', ho', hbills', howes'⟩ := hhas r hr
    have heq := eq_of_bills hos.refs ho' (hold ho) hbills' (bills_writeAll.mpr hbills)
    rw [heq, owes_iff, partyId_writeAll, ← owes_iff] at howes'
    exact owes_of_grown hps.ids hps.grown (hdb.foreign o ho) howes'

/-- **Whose debt it is.** An import attributes the debts of a sheet to the parties of its rows, and leaves those of
the others, exactly if no number of an invoice is shared. -/
theorem imported_iff (hdb : Constraints db) (h : importAll tenantId now rows db = some db') :
    Imported tenantId rows db db' ↔ Separate tenantId rows db :=
  ⟨separate_of_imported hdb h, imported_of_separate hdb h⟩

/-- Two customers with an invoice of the same number. -/
def twoCustomers : List SheetRow :=
  [⟨"Ravi Kirana", "919800000001", "INV-1", 10000, 0, none, "p1", "o1"⟩,
    ⟨"Suresh Stores", "919800000002", "INV-1", 25000, 0, none, "p2", "o2"⟩]

def oneCustomer : Db := (importAll "shop" 0 (twoCustomers.take 1) {}).getD {}

/-- An import into an empty ledger. -/
theorem imported_iff_take : importAll "shop" 0 (twoCustomers.take 1) {} = some oneCustomer ∧
    (Imported "shop" (twoCustomers.take 1) {} oneCustomer ↔ Separate "shop" (twoCustomers.take 1) {}) := by
  have hstart : Constraints {} :=
    ⟨List.nodup_nil, List.nodup_nil, List.nodup_nil, List.nodup_nil, fun _ h => absurd h List.not_mem_nil⟩
  have hrun : importAll "shop" 0 (twoCustomers.take 1) {} = some oneCustomer := rfl
  exact ⟨hrun, imported_iff hstart hrun⟩

/-- The debt of the second customer goes to the first. -/
theorem import_misattributes : ∃ db', importAll "shop" 0 twoCustomers {} = some db' ∧
    ¬ Imported "shop" twoCustomers {} db' := by
  refine ⟨_, rfl, fun himp => ?_⟩
  obtain ⟨o, ho, -, ⟨p, hp, hid, hreaches⟩, -⟩ :=
    himp.owed ⟨"Suresh Stores", "919800000002", "INV-1", 25000, 0, none, "p2", "o2"⟩ (by simp [twoCustomers])
      (by simp)
  revert p o
  decide

end Smara.Server.Ledger
