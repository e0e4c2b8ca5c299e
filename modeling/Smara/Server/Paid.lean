import Mathlib
import Smara.Server.Writes

/-! # Paid invoices

An invoice that is paid is to stay so, with its amount. A promise of a date or of another amount that was
made before is still there to be approved, and a reminder that could not be sent is undone whatever has come
of its invoice since.

* `Frozen`: the paid invoices of a state are paid in another, with the same amounts.
* `Keeps`: the calls that leave what is paid as it is.
* `paid_stays_iff`: every stretch of a run leaves it exactly when every call does. -/

namespace Smara.Server.Paid

open Lib.Machine Lib.Table Server.Schema Server.Ledger Server.Writes
open TaskStore.Schema (Time seconds)
open Relation (ReflTransGen)

/-- The paid obligations of a book are in another, paid and with the same amounts. -/
def Kept (b b' : Book) : Prop :=
  ∀ o ∈ b.obligations, o.state = .paid →
    ∃ o' ∈ b'.obligations, o'.id = o.id ∧ o'.state = .paid ∧ o'.amountPaise = o.amountPaise

instance (b b' : Book) : Decidable (Kept b b') := inferInstanceAs (Decidable (∀ _ ∈ _, _))

/-- **What is paid stays paid**, from one state to another. -/
def Frozen (s s' : State) : Prop := Kept (book s.db) (book s'.db)

instance (s s' : State) : Decidable (Frozen s s') := inferInstanceAs (Decidable (Kept _ _))

def Leaves (a : Adjustment) (o : Obligation) : Prop :=
  match a.adjustmentType, a.proposedAmountPaise, a.proposedDate with
  | .discountClaim, some amount, _ => amount = o.amountPaise
  | .partialPayment, some amount, _ => amount = o.amountPaise
  | .promiseDateChange, _, some _ => False
  | _, _, _ => True

/-- **The calls that leave what is paid**: an adjustment that is approved for a paid invoice has no new date and
no other amount, and the invoice of a reminder that could not be sent is not paid. -/
def Keeps (s : State) (c : Action) : Prop :=
  (∀ x ∈ decides s c, x.2.2 = true → x.2.1.state = .paid → Leaves x.1 x.2.1) ∧
    ∀ o ∈ rollsBack s c, ∀ p ∈ s.db.obligations, p.id = o.id → p.state ≠ .paid

/-! ### Books -/

theorem kept_refl (b : Book) : Kept b b := fun o ho hpaid => ⟨o, ho, rfl, hpaid, rfl⟩

theorem kept_trans {b b' b'' : Book} (h : Kept b b') (h' : Kept b' b'') : Kept b b'' := by
  intro o ho hpaid
  obtain ⟨o', ho', hid, hpaid', hamount⟩ := h o ho hpaid
  obtain ⟨o'', ho'', hid', hpaid'', hamount'⟩ := h' o' ho' hpaid'
  exact ⟨o'', ho'', hid'.trans hid, hpaid'', hamount'.trans hamount⟩

theorem kept_update {obligations : List Obligation} {events events' : List ObligationEvent}
    {p : Obligation → Prop} [DecidablePred p] {f : Obligation → Obligation}
    (hf : ∀ o ∈ obligations, p o → o.state = .paid →
      (f o).id = o.id ∧ (f o).state = .paid ∧ (f o).amountPaise = o.amountPaise) :
    Kept ⟨obligations, events⟩ ⟨updateWhere p f obligations, events'⟩ := by
  intro o ho hpaid
  refine ⟨if p o then f o else o, mem_updateWhere.mpr ⟨o, ho, rfl⟩, ?_⟩
  split_ifs with hp
  · exact hf o ho hp hpaid
  · exact ⟨rfl, hpaid, rfl⟩

theorem kept_ordinary {b b' : Book} (hd : Distinct b) (h : Ordinary b b') : Kept b b' := by
  cases h with
  | create hnew he =>
    intro o ho hpaid
    exact ⟨o, List.mem_append_left _ ho, rfl, hpaid, rfl⟩
  | amend hmem hunpaid hf =>
    refine kept_update fun o ho hid hpaid => absurd hpaid ?_
    rwa [Keyed.eq_of_key hd ho hmem hid]
  | move hmem hunpaid hf he =>
    refine kept_update fun o ho hid hpaid => absurd hpaid ?_
    rwa [Keyed.eq_of_key hd ho hmem hid]

theorem kept_ordinaries {b b' : Book} (hd : Distinct b) (h : ReflTransGen Ordinary b b') : Kept b b' := by
  induction h with
  | refl => exact kept_refl b
  | tail hpre h ih => exact kept_trans ih (kept_ordinary (distinct_ordinaries hpre hd) h)

theorem kept_write_iff {b : Book} {o : Obligation} {f : Obligation → Obligation} {e : ObligationEvent}
    (hd : Distinct b) (hmem : o ∈ b.obligations) (hf : ∀ p, (f p).id = p.id) :
    Kept b (b.write o.id f e) ↔
      (o.state = .paid → (f o).state = .paid ∧ (f o).amountPaise = o.amountPaise) := by
  constructor
  · intro h hpaid
    obtain ⟨o', ho', hid, hpaid', hamount⟩ := h o hmem hpaid
    obtain ⟨p, hp, rfl⟩ := mem_updateWhere.mp ho'
    have hpo : p = o := by
      refine Keyed.eq_of_key hd hp hmem ?_
      split_ifs at hid with hkey
      · exact hkey
      · exact hid
    subst hpo
    rw [if_pos rfl] at hpaid' hamount
    exact ⟨hpaid', hamount⟩
  · intro h
    refine kept_update fun p hp hid hpaid => ?_
    obtain rfl := Keyed.eq_of_key hd hp hmem hid
    exact ⟨hf p, h hpaid⟩

/-! ### Calls -/

theorem leaves_iff {a : Adjustment} {o : Obligation} (hpaid : o.state = .paid) :
    ((Adjustment.apply a o).state = .paid ∧ (Adjustment.apply a o).amountPaise = o.amountPaise) ↔ Leaves a o := by
  cases hkind : a.adjustmentType
  all_goals cases hamount : a.proposedAmountPaise
  all_goals cases hdate : a.proposedDate
  all_goals simp [Adjustment.apply, Leaves, hkind, hamount, hdate, hpaid]

theorem frozen_decides_iff {quiet : Time → Bool} {s : State} {c : Action} {a : Adjustment} {o : Obligation}
    {approve : Bool} (hd : Distinct (book s.db)) (h : decides s c = some (a, o, approve)) :
    Frozen s (step quiet s c) ↔ (approve = true → o.state = .paid → Leaves a o) := by
  obtain ⟨hmem, hbook⟩ := book_decides quiet h
  rw [Frozen, hbook, kept_write_iff (b := book s.db) hd hmem]
  · cases approve with
    | true =>
      simp only [if_true, true_implies]
      exact forall_congr' leaves_iff
    | false => simp
  · intro p
    split_ifs
    · exact id_apply a p
    · rfl

theorem frozen_rollsBack_iff {quiet : Time → Bool} {s : State} {c : Action} {o : Obligation}
    (h : rollsBack s c = some o) : Frozen s (step quiet s c) ↔
      ∀ p ∈ s.db.obligations, p.id = o.id → p.state ≠ .paid := by
  obtain ⟨now, hbook⟩ := book_rollsBack quiet h
  rw [Frozen, hbook]
  constructor
  · intro hkept p hp hid hpaid
    obtain ⟨p', hp', hid', hpaid', -⟩ := hkept p hp hpaid
    obtain ⟨q, hq, rfl⟩ := mem_updateWhere.mp hp'
    by_cases hkey : q.id = o.id
    · rw [if_pos hkey] at hpaid'
      cases hpaid'
    · rw [if_neg hkey] at hid'
      exact hkey (hid'.trans hid)
  · intro hunpaid
    exact kept_update fun p hp hid hpaid => absurd hpaid (hunpaid p hp hid)

theorem frozen_releases {quiet : Time → Bool} {s : State} {c : Action} {o : Obligation}
    (h : releases s c = some o) : Frozen s (step quiet s c) := by
  obtain ⟨now, hbook⟩ := book_releases quiet h
  rw [Frozen, hbook]
  refine kept_update fun p hp hwaits hpaid => ?_
  rw [hpaid] at hwaits
  cases hwaits.2

theorem frozen_declines {quiet : Time → Bool} {s : State} {c : Action} {o : Obligation}
    (hd : Distinct (book s.db)) (h : declines quiet s c = some o) : Frozen s (step quiet s c) := by
  obtain ⟨hmem, hwaits, now, hbook⟩ := book_declines h
  rw [Frozen, hbook]
  refine kept_update fun p hp hid hpaid => ?_
  rw [Keyed.eq_of_key hd hp hmem hid, hwaits] at hpaid
  cases hpaid

theorem frozen_iff {quiet : Time → Bool} {s : State} {c : Action} (hd : Distinct (book s.db)) :
    Frozen s (step quiet s c) ↔ Keeps s c := by
  cases hdecides : decides s c with
  | some x =>
    obtain ⟨a, o, approve⟩ := x
    have hrollsBack : rollsBack s c = none := by
      cases c with
      | decideAdjustment => rfl
      | _ => cases hdecides
    rw [frozen_decides_iff hd hdecides]
    simp [Keeps, hdecides, hrollsBack]
  | none =>
    cases hrollsBack : rollsBack s c with
    | some o =>
      rw [frozen_rollsBack_iff hrollsBack]
      simp [Keeps, hdecides, hrollsBack]
    | none =>
      have hkeeps : Keeps s c := by simp [Keeps, hdecides, hrollsBack]
      refine iff_of_true ?_ hkeeps
      cases hreleases : releases s c with
      | some o => exact frozen_releases hreleases
      | none =>
        cases hdeclines : declines quiet s c with
        | some o => exact frozen_declines hd hdeclines
        | none => exact kept_ordinaries hd (step_ordinary hd hdecides hreleases hrollsBack hdeclines)

/-- **When what is paid stays paid.** In every stretch of a run of calls, in any order and with any sends that
fail, the paid invoices stay paid with their amounts, exactly when each call leaves what is paid. -/
theorem paid_stays_iff (quiet : Time → Bool) (cs : List Action) :
    (∀ pre mid post, cs = pre ++ mid ++ post →
      Frozen (run (step quiet) {} pre) (run (step quiet) {} (pre ++ mid))) ↔ Along (step quiet) Keeps {} cs := by
  rw [stretches_iff (R := Frozen) (fun s => kept_refl _) fun s t u => kept_trans]
  have hstep : ∀ s c, Distinct (book s.db) → Keeps s c → Distinct (book (step quiet s c).db) :=
    fun s c hd _ => distinct_step hd
  have hempty : Distinct (book ({} : State).db) := List.nodup_nil
  exact along_iff_of_inv hstep (fun s c hd => frozen_iff hd) hempty

/-- A promise of a date that is approved after the invoice was marked as paid. -/
def promisedThenPaid : List Action :=
  let row : SheetRow := {
    party := "Ravi Traders", phone := "919800000001", invoiceRef := "INV-1", amountPaise := 500000, dueDate := 10
    partyId := "party", obligationId := "invoice" }
  [.importRows "shop" 0 [row], .claimDue (days 11) 20 [],
    .submitDebtorClaim "shop" "party" "invoice" "claim" .promiseDateChange "kal tak" none (some 20) "promise"
      (days 11),
    .decideReminder "shop" "invoice" .paid (days 12), .decideAdjustment "shop" "promise" true (days 13)]

/-- The invoice that was paid is active again. -/
theorem paid_then_active : ¬ ∀ (quiet : Time → Bool) (cs pre mid post : List Action), cs = pre ++ mid ++ post →
    Frozen (run (step quiet) {} pre) (run (step quiet) {} (pre ++ mid)) := by
  intro h
  have hkept := h (fun _ => false) promisedThenPaid (promisedThenPaid.take 4) (promisedThenPaid.drop 4) []
    (by simp)
  revert hkept
  decide_cbv

end Smara.Server.Paid
