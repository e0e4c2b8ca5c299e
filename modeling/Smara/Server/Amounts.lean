import Mathlib
import Smara.Server.Proposals
import Smara.Server.Writes

/-! # What is owed of an invoice

A proposal of a reduction is checked against what is owed when it is made, and it holds the total that would
be owed then. When it is approved that total is written, whatever is owed by now.

* `step`: proposals of a session, claims that the rules read from a message, and decisions of the owner.
* `Accumulates`: no stretch of a run raises what is owed, and part payments alone lower it by their sum.
* `Fits`: the approvals of a total that fits what is owed.
* `accumulates_iff`: the reductions accumulate exactly when every approval fits. -/

namespace Smara.Server.Amounts

open Lib.Machine Lib.Table Lib.Round
open Server.Schema Server.Ledger Server.Proposals
open TaskStore.Schema (Time)

/-! ### Proposals and decisions -/

/-- A part payment that was proposed: what was owed then, and what the customer says was paid. -/
structure PartPayment where
  adjustmentId : Id
  owed : ℤ
  /-- in paise -/
  paid : ℚ

structure State where
  db : Db
  /-- the part payments that were proposed, kept for the statements only -/
  parts : List PartPayment := []

def start (invoices : List Obligation) : State := { db := { obligations := invoices } }

inductive Action
  /-- a session calls `propose_ledger_adjustment` -/
  | propose (ctx : SessionCtx) (today : Day) (args : Args) (sourceId : String) (adjustmentId : Id) (card : String)
    (now : Time)
  /-- the rules read a claim from a message about an obligation, with the figure that they have found -/
  | claim (tenantId partyId obligationId : Id) (sourceId : String) (kind : AdjustmentType) (found : Option ℤ)
    (date : Option Day) (evidence : String) (adjustmentId : Id) (now : Time)
  | decide (tenantId adjustmentId : Id) (approve : Bool) (now : Time)

/-- `_pick_amount`: the figure of a discount, if it is below what is owed. -/
def pickAmount (kind : AdjustmentType) (outstanding : ℤ) (found : Option ℤ) : Option ℤ :=
  if kind = .discountClaim then found.filter fun x => 0 < x ∧ x < outstanding else none

/-- What the customer says was paid, in paise: the figure that is named, or what the new total leaves. -/
def paidOf (args : Args) (owed : ℤ) (proposed : ℤ) : ℚ :=
  match args.paidRupees with
  | some (.rational q) => 100 * q
  | _ => owed - proposed

def partOf (args : Args) (o : Obligation) (adjustmentId : Id) (p : Proposal) : Option PartPayment :=
  match p.kind, p.paise with
  | .partialPayment, some proposed =>
    some { adjustmentId, owed := o.amountPaise, paid := paidOf args o.amountPaise proposed }
  | _, _ => none

def propose (ctx : SessionCtx) (today : Day) (args : Args) (sourceId : String) (adjustmentId : Id) (card : String)
    (now : Time) (s : State) : State :=
  match obligationOf ctx.tenantId args.obligationId s.db, validateGated ctx today args s.db with
  | some o, .ok p =>
    let db := openGate ctx.tenantId sourceId adjustmentId card now p s.db
    let new := (db.adjustment adjustmentId).isSome ∧ (s.db.adjustment adjustmentId).isNone
    { db, parts := if new then s.parts ++ (partOf args o adjustmentId p).toList else s.parts }
  | _, _ => s

def step (s : State) : Action → State
  | .propose ctx today args sourceId adjustmentId card now =>
    propose ctx today args sourceId adjustmentId card now s
  | .claim tenantId partyId obligationId sourceId kind found date evidence adjustmentId now =>
    match s.db.obligation obligationId with
    | none => s
    | some o =>
      let amount := pickAmount kind o.amountPaise found
      let db := submitDebtorClaim tenantId partyId obligationId sourceId kind evidence amount date adjustmentId now
        s.db
      { s with db }
  | .decide tenantId adjustmentId approve now =>
    { s with db := decideAdjustment tenantId adjustmentId approve now s.db }

inductive Approval
  | discount
  /-- a part payment, in paise -/
  | part (paid : ℚ)

def decided (s : State) : Action → Option (Adjustment × Obligation × Bool)
  | .decide tenantId adjustmentId approve now =>
    Writes.decides { db := s.db } (.decideAdjustment tenantId adjustmentId approve now)
  | _ => none

def partPayment (s : State) (a : Adjustment) : Option PartPayment := lookup PartPayment.adjustmentId a.id s.parts

/-- The reduction that the call approves, and the id of its invoice. -/
def approved (s : State) (c : Action) : Option (Id × Approval) :=
  match decided s c with
  | some (a, o, true) =>
    match a.adjustmentType, a.proposedAmountPaise with
    | .discountClaim, some _ => some (o.id, .discount)
    | .partialPayment, some _ => (partPayment s a).map fun m => (o.id, .part m.paid)
    | _, _ => none
  | _ => none

def ofInvoice (id : Id) (xs : List (Id × Approval)) : List Approval :=
  (xs.filter fun x => x.1 = id).map Prod.snd

/-- **Reductions accumulate**, from one state to another: what is owed is not raised, and if all that was approved
is part payments, it is lowered by their sum. -/
def Lowered (xs : List (Id × Approval)) (s t : State) : Prop :=
  ∀ id o, s.db.obligation id = some o → ∃ o', t.db.obligation id = some o' ∧ o'.amountPaise ≤ o.amountPaise ∧
    ∀ paid : List ℚ, ofInvoice id xs = paid.map .part → (o'.amountPaise : ℚ) = o.amountPaise - paid.sum

def Accumulates (invoices : List Obligation) (cs : List Action) : Prop :=
  ∀ pre mid post, cs = pre ++ mid ++ post →
    Lowered (outputs step approved (run step (start invoices) pre) mid) (run step (start invoices) pre)
      (run step (start invoices) (pre ++ mid))

/-- **The approval fits what is owed**: a discount is not above it, and a part payment was proposed when as much
was owed, and is a number of paise. -/
def Fits (s : State) (c : Action) : Prop :=
  match decided s c with
  | some (a, o, true) =>
    match a.adjustmentType, a.proposedAmountPaise with
    | .discountClaim, some amount => amount ≤ o.amountPaise
    | .partialPayment, some _ => ∀ m ∈ partPayment s a, m.owed = o.amountPaise ∧ m.paid.den = 1
    | _, _ => True
  | _ => True

/-! ### Proposals -/

theorem computeAmount_part {args args' : Args} {owed paid : ℚ} (hkind : args.kind = some .partialPayment)
    (hpaid : args.paidRupees = some (.rational paid)) (h : computeAmount args owed = .ok args') :
    args'.newAmountRupees = some (.rational (round2 (owed - paid))) := by
  simp only [computeAmount, hkind, hpaid] at h
  split_ifs at h
  cases h
  rfl

theorem checkAmount_eq_ok {amount : ℤ} {x : Option Number} {y : Option ℚ} (h : checkAmount amount x = .ok y) :
    x = y.map .rational ∧ ∀ q ∈ y, 0 < q * 100 ∧ q * 100 < amount := by
  unfold checkAmount at h
  split at h
  · cases h
    exact ⟨rfl, by simp⟩
  · split_ifs at h with hrange
    cases h
    exact ⟨rfl, by simpa using hrange⟩
  · cases h
  · cases h
  · cases h

theorem checkProposal_eq_ok {ctx : SessionCtx} {today : Day} {o : Obligation} {kind : AdjustmentType} {args : Args}
    {p : Proposal} (h : checkProposal ctx today o kind args = .ok p) :
    p.kind = kind ∧ p.obligationId = o.id ∧ checkAmount o.amountPaise args.newAmountRupees = .ok p.newAmountRupees ∧
      (ctx.trust = .untrusted → some o.partyId = ctx.partyId) := by
  unfold checkProposal at h
  split_ifs at h with hnone hother
  split at h
  · cases h
  · cases h
  · rename_i hamount hdate
    cases h
    refine ⟨rfl, rfl, hamount, fun huntrusted => ?_⟩
    by_contra hne
    exact hother ⟨huntrusted, hne⟩

/-- **What a proposal that passed says.** -/
theorem validateGated_eq_ok {ctx : SessionCtx} {today : Day} {args : Args} {db : Db} {p : Proposal}
    (h : validateGated ctx today args db = .ok p) : ∃ o args',
      obligationOf ctx.tenantId args.obligationId db = some o ∧ o.state ≠ .paid ∧ args.kind = some p.kind ∧
        computeAmount args (o.amountPaise / 100) = .ok args' ∧ checkProposal ctx today o p.kind args' = .ok p := by
  unfold validateGated at h
  split at h
  · cases h
  · rename_i o ho
    split_ifs at h with hpaid
    split at h
    · cases h
    · rename_i kind hkind
      split at h
      · cases h
      · rename_i args' hcompute
        obtain ⟨rfl, -⟩ := checkProposal_eq_ok h
        exact ⟨o, args', ho, hpaid, hkind, hcompute, h⟩

theorem halfEven_round2 (owed k : ℤ) : halfEven (round2 ((owed : ℚ) / 100 - k / 100) * 100) = owed - k := by
  have h : ((owed : ℚ) / 100 - k / 100) * 100 = ((owed - k : ℤ) : ℚ) := by
    push_cast
    ring
  rw [round2, h, halfEven_intCast, div_mul_cancel₀ _ (by norm_num), halfEven_intCast]

def PartOf (m : PartPayment) (proposed : ℤ) : Prop :=
  proposed ≤ m.owed ∧ (m.paid.den = 1 → (proposed : ℚ) = m.owed - m.paid)

theorem partOf_spec {ctx : SessionCtx} {today : Day} {args : Args} {db : Db} {p : Proposal} {o : Obligation}
    (ho : obligationOf ctx.tenantId args.obligationId db = some o) (h : validateGated ctx today args db = .ok p)
    (hkind : p.kind = .partialPayment) {proposed : ℤ} (hproposed : p.paise = some proposed) (adjustmentId : Id) :
    ∃ m, partOf args o adjustmentId p = some m ∧ m.adjustmentId = adjustmentId ∧ PartOf m proposed := by
  obtain ⟨o', args', ho', -, hkind', hcompute, hcheck⟩ := validateGated_eq_ok h
  rw [ho] at ho'
  obtain rfl := Option.some.inj ho'
  obtain ⟨-, -, hamount, -⟩ := checkProposal_eq_ok hcheck
  obtain ⟨hnew, hrange⟩ := checkAmount_eq_ok hamount
  obtain ⟨q, hq, rfl⟩ := Option.map_eq_some_iff.mp hproposed
  have hle : halfEven (q * 100) ≤ o.amountPaise := halfEven_le (hrange q hq).2.le
  have hpart : partOf args o adjustmentId p =
      some ⟨adjustmentId, o.amountPaise, paidOf args o.amountPaise (halfEven (q * 100))⟩ := by
    simp only [partOf, hkind, hproposed]
  refine ⟨_, hpart, rfl, hle, fun hden => ?_⟩
  simp only [paidOf] at hden ⊢
  split
  · rename_i paid hpaid
    -- The amount was worked out from what was paid.
    have htotal := computeAmount_part (by rw [hkind', hkind]) hpaid hcompute
    rw [hnew, hq] at htotal
    obtain rfl : q = round2 (o.amountPaise / 100 - paid) := by simpa using htotal
    rw [hpaid] at hden
    have hwhole : paid = ((100 * paid).num : ℚ) / 100 := by
      rw [Rat.coe_int_num_of_den_eq_one hden]
      ring
    generalize (100 * paid).num = k at hwhole
    subst hwhole
    rw [halfEven_round2]
    push_cast
    ring
  · ring

/-! ### Adjustments -/

@[simp] theorem obligation_submitDebtorClaim (tenantId partyId obligationId : Id) (sourceId : String)
    (kind : AdjustmentType) (evidence : String) (amount : Option ℤ) (date : Option Day) (adjustmentId id : Id)
    (now : Time) (db : Db) : (submitDebtorClaim tenantId partyId obligationId sourceId kind evidence amount
      date adjustmentId now db).obligation id = db.obligation id := by
  have hbook := Writes.book_submitDebtorClaim tenantId partyId obligationId sourceId kind evidence amount date
    adjustmentId now db
  have hobligations := congrArg Writes.Book.obligations hbook
  simp only [Writes.book] at hobligations
  rw [Db.obligation, hobligations, Db.obligation]

@[simp] theorem obligation_openGate (tenantId : Id) (sourceId : String) (adjustmentId : Id) (card : String)
    (now : Time) (p : Proposal) (db : Db) (id : Id) :
    (openGate tenantId sourceId adjustmentId card now p db).obligation id = db.obligation id := by
  unfold openGate
  split
  · rfl
  · exact obligation_submitDebtorClaim ..

@[simp] theorem adjustments_enqueue (now : Time) (userId sourceId text : String) (trusted : Bool)
    (stamp : Option Id) (db : Db) :
    (enqueue now userId sourceId text trusted stamp db).adjustments = db.adjustments := by
  unfold enqueue
  split_ifs
  all_goals rfl

theorem adjustments_submit (tenantId partyId obligationId : Id) (sourceId : String) (kind : AdjustmentType)
    (evidence : String) (amount : Option ℤ) (date : Option Day) (adjustmentId : Id) (now : Time) (db : Db) :
    (submitDebtorClaim tenantId partyId obligationId sourceId kind evidence amount date adjustmentId now
        db).adjustments = db.adjustments ∨
      db.adjustment adjustmentId = none ∧
        (submitDebtorClaim tenantId partyId obligationId sourceId kind evidence amount date adjustmentId now
          db).adjustments = db.adjustments ++ [{
            id := adjustmentId, obligationId, adjustmentType := kind, proposedAmountPaise := amount
            proposedDate := date, rawEvidenceText := evidence, continuumSourceId := sourceId }] := by
  unfold submitDebtorClaim
  split_ifs with hbad
  · exact Or.inl rfl
  · simp only [adjustments_enqueue]
    split_ifs with hold
    · exact Or.inl (adjustments_enqueue ..)
    · simp only [not_or, Option.not_isSome_iff_eq_none] at hbad
      exact Or.inr ⟨hbad.2.2, rfl⟩

theorem mem_notified {sourceId : String} {now : Time} {db : Db} {b : Adjustment}
    (h : b ∈ (notified sourceId now db).adjustments) : ∃ b' ∈ db.adjustments, b'.id = b.id ∧
      b'.adjustmentType = b.adjustmentType ∧ b'.proposedAmountPaise = b.proposedAmountPaise := by
  obtain ⟨b', hb', rfl⟩ := mem_updateWhere.mp h
  refine ⟨b', hb', ?_⟩
  split_ifs
  all_goals exact ⟨rfl, rfl, rfl⟩

theorem notified_of_mem {sourceId : String} {now : Time} {db : Db} {b : Adjustment} (h : b ∈ db.adjustments) :
    ∃ b' ∈ (notified sourceId now db).adjustments, b'.id = b.id := by
  refine ⟨_, mem_updateWhere.mpr ⟨b, h, rfl⟩, ?_⟩
  split_ifs
  all_goals rfl

/-! ### The part payments of the adjustments -/

/-- **The invariant**: the part payment of an adjustment is known, and goes with its total. -/
structure Sound (s : State) : Prop where
  parts : ∀ b ∈ s.db.adjustments, b.adjustmentType = .partialPayment → ∀ x ∈ b.proposedAmountPaise,
    ∃ m ∈ partPayment s b, PartOf m x
  known : ∀ m ∈ s.parts, ∃ b ∈ s.db.adjustments, b.id = m.adjustmentId

/-- Adjustments that were there before, with the same ids, types and amounts. -/
def Within (l l' : List Adjustment) : Prop :=
  (∀ b ∈ l', ∃ b' ∈ l, b'.id = b.id ∧ b'.adjustmentType = b.adjustmentType ∧
    b'.proposedAmountPaise = b.proposedAmountPaise) ∧ ∀ b ∈ l, ∃ b' ∈ l', b'.id = b.id

theorem Sound.within {s : State} (h : Sound s) {db : Db} (hdb : Within s.db.adjustments db.adjustments) :
    Sound { s with db } := by
  refine ⟨fun b hb hkind x hx => ?_, fun m hm => ?_⟩
  · obtain ⟨b', hb', hid, hkind', hamount⟩ := hdb.1 b hb
    obtain ⟨m, hm, hpart⟩ := h.parts b' hb' (by rw [hkind', hkind]) x (by rwa [hamount])
    refine ⟨m, ?_, hpart⟩
    rwa [partPayment, hid] at hm
  · obtain ⟨b, hb, hid⟩ := h.known m hm
    obtain ⟨b', hb', hid'⟩ := hdb.2 b hb
    exact ⟨b', hb', hid'.trans hid⟩

theorem within_notified (sourceId : String) (now : Time) (db : Db) :
    Within db.adjustments (notified sourceId now db).adjustments :=
  ⟨fun _ hb => mem_notified hb, fun _ hb => notified_of_mem hb⟩

theorem Sound.insert {s : State} (h : Sound s) {a : Adjustment} (hnew : s.db.adjustment a.id = none)
    {db : Db} (hdb : db.adjustments = s.db.adjustments ++ [a]) {part : Option PartPayment}
    (hid : ∀ m ∈ part, m.adjustmentId = a.id)
    (hpart : a.adjustmentType = .partialPayment → ∀ x ∈ a.proposedAmountPaise, ∃ m ∈ part, PartOf m x) :
    Sound { db, parts := s.parts ++ part.toList } := by
  refine ⟨fun b hb hkind x hx => ?_, fun m hm => ?_⟩
  · rw [hdb] at hb
    simp only [partPayment]
    rcases List.mem_append.mp hb with hb | hb
    · obtain ⟨m, hm, hof⟩ := h.parts b hb hkind x hx
      refine ⟨m, ?_, hof⟩
      rw [partPayment, Option.mem_def] at hm
      rw [lookup_append, hm]
      rfl
    · obtain rfl := List.mem_singleton.mp hb
      obtain ⟨m, hm, hof⟩ := hpart hkind x hx
      refine ⟨m, ?_, hof⟩
      have hnone : lookup PartPayment.adjustmentId b.id s.parts = none := by
        refine lookup_eq_none.mpr fun m' hm' heq => ?_
        obtain ⟨b', hb', hid'⟩ := h.known m' hm'
        exact lookup_eq_none.mp hnew b' hb' (hid'.trans heq)
      obtain rfl := Option.mem_def.mp hm
      rw [lookup_append, hnone]
      simp [lookup, hid m rfl]
  · rw [hdb]
    rcases List.mem_append.mp hm with hm | hm
    · obtain ⟨b, hb, hid'⟩ := h.known m hm
      exact ⟨b, List.mem_append_left _ hb, hid'⟩
    · exact ⟨a, by simp, (hid m (by simpa using hm)).symm⟩

theorem Within.refl (l : List Adjustment) : Within l l :=
  ⟨fun b hb => ⟨b, hb, rfl, rfl, rfl⟩, fun b hb => ⟨b, hb, rfl⟩⟩

theorem within_decide (tenantId adjustmentId : Id) (approve : Bool) (now : Time) (db : Db) :
    Within db.adjustments (decideAdjustment tenantId adjustmentId approve now db).adjustments := by
  unfold decideAdjustment
  split
  · exact .refl _
  · split
    · exact .refl _
    · split_ifs
      all_goals first
        | exact .refl _
        | rw [adjustments_enqueue]
      all_goals
        refine ⟨fun b hb => ?_, fun b hb => ?_⟩
        · obtain ⟨b', hb', rfl⟩ := mem_updateWhere.mp hb
          refine ⟨b', hb', ?_⟩
          split_ifs
          all_goals exact ⟨rfl, rfl, rfl⟩
        · refine ⟨_, mem_updateWhere.mpr ⟨b, hb, rfl⟩, ?_⟩
          split_ifs
          all_goals rfl

theorem obligationOf_eq_some {tenantId : Id} {id : String} {db : Db} {o : Obligation} :
    obligationOf tenantId id db = some o ↔ db.obligation id = some o ∧ o.tenantId = tenantId := by
  simp [obligationOf, Option.filter_eq_some_iff]

theorem isSome_adjustment_iff {db : Db} {id : Id} :
    (db.adjustment id).isSome ↔ ∃ b ∈ db.adjustments, b.id = id := by
  rw [Option.isSome_iff_ne_none, ne_eq, Db.adjustment, lookup_eq_none]
  push Not
  rfl

theorem sound_propose {ctx : SessionCtx} {today : Day} {args : Args} {sourceId : String} {adjustmentId : Id}
    {card : String} {now : Time} {s : State} (h : Sound s) :
    Sound (propose ctx today args sourceId adjustmentId card now s) := by
  unfold propose
  split
  · rename_i o p ho hp
    simp only
    obtain ⟨o', args', ho', -, -, -, hcheck⟩ := validateGated_eq_ok hp
    obtain ⟨-, hpid, -⟩ := checkProposal_eq_ok hcheck
    rw [ho] at ho'
    obtain rfl := Option.some.inj ho'
    -- The gate finds the obligation that was checked.
    have hfind : obligationOf ctx.tenantId p.obligationId s.db = some o := by
      rw [hpid, (Writes.mem_of_obligation (obligationOf_eq_some.mp ho).1).2, ho]
    generalize hev : ((if p.evidence = "" then card else p.evidence).take 2000).toString = evidence
    have hgate : openGate ctx.tenantId sourceId adjustmentId card now p s.db = notified sourceId now
        (submitDebtorClaim ctx.tenantId o.partyId o.id sourceId p.kind evidence p.paise p.newDueDate adjustmentId
          now s.db) := by
      simp only [openGate, hfind, hev]
    rw [hgate]
    have hsubmit := adjustments_submit ctx.tenantId o.partyId o.id sourceId p.kind evidence p.paise p.newDueDate
      adjustmentId now s.db
    generalize submitDebtorClaim ctx.tenantId o.partyId o.id sourceId p.kind evidence p.paise p.newDueDate
      adjustmentId now s.db = db at hsubmit ⊢
    have hshown := within_notified sourceId now db
    rcases hsubmit with hsame | ⟨hnone, hinsert⟩
    · rw [hsame] at hshown
      rw [if_neg]
      · exact h.within hshown
      · rintro ⟨hsome, hnone⟩
        rw [isSome_adjustment_iff] at hsome
        obtain ⟨b, hb, hid⟩ := hsome
        obtain ⟨b', hb', hid', -⟩ := hshown.1 b hb
        have hsome' := isSome_adjustment_iff.mpr ⟨b', hb', hid'.trans hid⟩
        rw [Option.isNone_iff_eq_none.mp hnone] at hsome'
        cases hsome'
    · rw [if_pos]
      · refine Sound.within (h.insert hnone hinsert ?_ ?_) hshown
        · intro m hm
          simp only [partOf] at hm
          split at hm
          · cases hm
            rfl
          · cases hm
        · intro hkind x hx
          obtain ⟨m, hm, -, hof⟩ := partOf_spec ho hp hkind hx adjustmentId
          exact ⟨m, hm, hof⟩
      · refine ⟨isSome_adjustment_iff.mpr ?_, by rw [hnone]; rfl⟩
        rw [hinsert] at hshown
        exact hshown.2 _ (List.mem_append_right _ (List.mem_singleton_self _))
  · exact h

theorem sound_step {s : State} {c : Action} (h : Sound s) : Sound (step s c) := by
  cases c with
  | propose => exact sound_propose h
  | claim tenantId partyId obligationId sourceId kind found date evidence adjustmentId now =>
    simp only [step]
    split
    · exact h
    · rename_i o ho
      rcases adjustments_submit tenantId partyId obligationId sourceId kind evidence
        (pickAmount kind o.amountPaise found) date adjustmentId now s.db with hsame | ⟨hnone, hinsert⟩
      · refine h.within ?_
        rw [hsame]
        exact .refl _
      · have hinserted := h.insert hnone hinsert (fun m (hm : m ∈ none) => nomatch hm) fun hkind x hx => by
          simp only at hkind hx
          simp [pickAmount, hkind] at hx
        rwa [Option.toList_none, List.append_nil] at hinserted
  | decide tenantId adjustmentId approve now => exact h.within (within_decide ..)

theorem sound_start (invoices : List Obligation) : Sound (start invoices) := by
  constructor
  · intro b hb
    cases hb
  · intro m hm
    cases hm

/-! ### What is owed -/

theorem ofInvoice_append (id : Id) (xs ys : List (Id × Approval)) :
    ofInvoice id (xs ++ ys) = ofInvoice id xs ++ ofInvoice id ys := by
  simp [ofInvoice]

theorem lowered_refl (s : State) : Lowered [] s s := by
  intro id o ho
  refine ⟨o, ho, le_rfl, fun paid hpaid => ?_⟩
  obtain rfl : paid = [] := by simpa [ofInvoice] using hpaid.symm
  simp

theorem lowered_trans {xs ys : List (Id × Approval)} {s t u : State} (h : Lowered xs s t) (h' : Lowered ys t u) :
    Lowered (xs ++ ys) s u := by
  intro id o ho
  obtain ⟨o', ho', hle, hsum⟩ := h id o ho
  obtain ⟨o'', ho'', hle', hsum'⟩ := h' id o' ho'
  refine ⟨o'', ho'', hle'.trans hle, fun paid hpaid => ?_⟩
  rw [ofInvoice_append] at hpaid
  obtain ⟨ps, qs, rfl, hps, hqs⟩ := List.append_eq_map_iff.mp hpaid
  rw [hsum' qs hqs.symm, hsum ps hps.symm, List.sum_append]
  ring

theorem lowered_of_same {s t : State} (h : ∀ id, t.db.obligation id = s.db.obligation id) : Lowered [] s t := by
  intro id o ho
  obtain ⟨o', ho', hle, hsum⟩ := lowered_refl s id o ho
  exact ⟨o', by rw [h, ho'], hle, hsum⟩

theorem obligation_decided {s : State} {c : Action} {a : Adjustment} {o : Obligation} {approve : Bool}
    (h : decided s c = some (a, o, approve)) (id : Id) : (step s c).db.obligation id =
      (s.db.obligation id).map fun p =>
        if p.id = o.id then if approve then Adjustment.apply a p else p else p := by
  cases c with
  | decide tenantId adjustmentId approve' now =>
    have h' : Writes.decides { db := s.db } (.decideAdjustment tenantId adjustmentId approve' now) =
      some (a, o, approve) := h
    have hbook := (Writes.book_decides (fun _ => false) h').2
    have hrows := congrArg Writes.Book.obligations hbook
    simp only [Writes.book, Writes.Book.write, Ledger.step, Ledger.State.with] at hrows
    simp only [step, Db.obligation, hrows]
    refine lookup_updateWhere fun p _ => ?_
    split_ifs
    · exact Writes.id_apply a p
    · rfl
  | _ => cases h

theorem obligation_undecided {s : State} {c : Action} (h : decided s c = none) (id : Id) :
    (step s c).db.obligation id = s.db.obligation id := by
  cases c with
  | propose ctx today args sourceId adjustmentId card now =>
    simp only [step, propose]
    split
    · simp
    · rfl
  | claim =>
    simp only [step]
    split
    · rfl
    · simp
  | decide tenantId adjustmentId approve now =>
    simp only [step, Writes.decideAdjustment_of_none h]

theorem lowered_approval_iff {s t : State} {o : Obligation} {x : ℤ} {y : Approval}
    (ho : s.db.obligation o.id = some o) (ht : ∀ id, t.db.obligation id = (s.db.obligation id).map fun p =>
      if p.id = o.id then { p with amountPaise := x } else p) :
    Lowered [(o.id, y)] s t ↔ x ≤ o.amountPaise ∧ ∀ paid, y = .part paid → (x : ℚ) = o.amountPaise - paid := by
  constructor
  · intro h
    obtain ⟨o', ho', hle, hsum⟩ := h o.id o ho
    rw [ht, ho] at ho'
    obtain rfl : { o with amountPaise := x } = o' := by simpa using ho'
    refine ⟨hle, ?_⟩
    rintro paid rfl
    have := hsum [paid] (by simp [ofInvoice])
    simpa using this
  · rintro ⟨hle, hpart⟩ id p hp
    have hpid := (Writes.mem_of_obligation hp).2
    rw [ht, hp]
    by_cases hid : p.id = o.id
    · rw [← hpid, hid, ho] at hp
      obtain rfl := Option.some.inj hp
      refine ⟨{ o with amountPaise := x }, by simp, hle, fun paid hpaid => ?_⟩
      have hown : ofInvoice id [(o.id, y)] = [y] := by simp [ofInvoice, hpid]
      rw [hown] at hpaid
      obtain ⟨q, rfl, hq⟩ := List.map_eq_singleton_iff.mp hpaid.symm
      simpa using hpart q hq.symm
    · refine ⟨p, by simp [hid], le_rfl, fun paid hpaid => ?_⟩
      have hother : ofInvoice id [(o.id, y)] = [] := by
        rw [← hpid]
        simp [ofInvoice, Ne.symm hid]
      rw [hother] at hpaid
      obtain rfl : paid = [] := by simpa using hpaid.symm
      simp

theorem lowered_of_amount {s t : State} {f : Obligation → Obligation}
    (ht : ∀ id, t.db.obligation id = (s.db.obligation id).map f) (hf : ∀ p, (f p).amountPaise = p.amountPaise) :
    Lowered [] s t := by
  intro id o ho
  rw [ht, ho]
  refine ⟨f o, rfl, (hf o).le, fun paid hpaid => ?_⟩
  obtain rfl : paid = [] := by simpa [ofInvoice] using hpaid.symm
  simp [hf]

theorem mem_decided {s : State} {c : Action} {a : Adjustment} {o : Obligation} {approve : Bool}
    (h : decided s c = some (a, o, approve)) : a ∈ s.db.adjustments ∧ s.db.obligation o.id = some o := by
  cases c with
  | decide tenantId adjustmentId approve' now =>
    have h' : Writes.decides { db := s.db } (.decideAdjustment tenantId adjustmentId approve' now) =
      some (a, o, approve) := h
    obtain ⟨hmem, -, ho, -⟩ := Writes.mem_decides h'
    exact ⟨hmem, ho⟩
  | _ => cases h

theorem part_fits_iff {m : PartPayment} {x amount : ℤ} (h : PartOf m x) :
    (x ≤ amount ∧ (x : ℚ) = amount - m.paid) ↔ m.owed = amount ∧ m.paid.den = 1 := by
  constructor
  · rintro ⟨-, hx⟩
    have hpaid : m.paid = ((amount - x : ℤ) : ℚ) := by
      push_cast
      linarith
    have hden : m.paid.den = 1 := by
      rw [hpaid]
      rfl
    refine ⟨?_, hden⟩
    have howed := h.2 hden
    rw [hx] at howed
    have heq : (m.owed : ℚ) = amount := by linarith
    exact_mod_cast heq
  · rintro ⟨rfl, hden⟩
    exact ⟨h.1, h.2 hden⟩

theorem lowered_step_iff {s : State} {c : Action} (h : Sound s) :
    Lowered (approved s c).toList s (step s c) ↔ Fits s c := by
  cases hdecided : decided s c with
  | none =>
    simp only [approved, Fits, hdecided, iff_true]
    exact lowered_of_same (obligation_undecided hdecided)
  | some d =>
    obtain ⟨a, o, approve⟩ := d
    obtain ⟨ha, ho⟩ := mem_decided hdecided
    have ht := obligation_decided hdecided
    cases approve with
    | false =>
      simp only [approved, Fits, hdecided, iff_true]
      simp only [Bool.false_eq_true, if_false] at ht
      refine lowered_of_amount ht fun p => ?_
      split_ifs
      all_goals rfl
    | true =>
      simp only [if_true] at ht
      -- The adjustments that write no amount.
      have hother (hkeep : ∀ p, (Adjustment.apply a p).amountPaise = p.amountPaise) : Lowered [] s (step s c) := by
        refine lowered_of_amount ht fun p => ?_
        split_ifs
        · exact hkeep p
        · rfl
      cases hkind : a.adjustmentType with
      | discountClaim =>
        cases hamount : a.proposedAmountPaise with
        | none =>
          simp only [approved, Fits, hdecided, hkind, hamount, iff_true]
          exact hother fun p => by simp [Adjustment.apply, hkind, hamount]
        | some x =>
          simp only [approved, Fits, hdecided, hkind, hamount, Option.toList_some]
          rw [lowered_approval_iff ho (x := x)]
          · simp
          · simpa [Adjustment.apply, hkind, hamount] using ht
      | partialPayment =>
        cases hamount : a.proposedAmountPaise with
        | none =>
          simp only [approved, Fits, hdecided, hkind, hamount, iff_true]
          exact hother fun p => by simp [Adjustment.apply, hkind, hamount]
        | some x =>
          obtain ⟨m, hm, hof⟩ := h.parts a ha hkind x hamount
          rw [Option.mem_def] at hm
          simp only [approved, Fits, hdecided, hkind, hamount, hm, Option.map_some, Option.toList_some]
          rw [lowered_approval_iff ho (x := x)]
          · simpa using part_fits_iff hof
          · simpa [Adjustment.apply, hkind, hamount] using ht
      | promiseDateChange =>
        simp only [approved, Fits, hdecided, hkind, iff_true]
        refine hother fun p => ?_
        cases hdate : a.proposedDate
        all_goals simp [Adjustment.apply, hkind, hdate]
      | utrProof =>
        simp only [approved, Fits, hdecided, hkind, iff_true]
        exact hother fun p => by simp [Adjustment.apply, hkind]

/-- Two part payments of an invoice of 1000 rupees, of 200 and of 300, that were both proposed before the owner
approves them. -/
def twoPayments : List Action :=
  let ctx : SessionCtx := { id := "session", tenantId := "shop", trust := .untrusted, partyId := some "party" }
  let paid (q : ℚ) : Args :=
    { obligationId := "invoice", kind := some .partialPayment, paidRupees := some (.rational q) }
  [.propose ctx 10 (paid 200) "first" "a" "" 0, .propose ctx 10 (paid 300) "second" "b" "" 0,
    .decide "shop" "b" true 0, .decide "shop" "a" true 0]

end Smara.Server.Amounts
