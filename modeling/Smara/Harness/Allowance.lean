import Mathlib
import Smara.Harness.Uncertain

/-! # The allowance of a session and of its children

A session has a budget of tool calls, model calls and tokens. A child reserves a part of it, which is
charged when its usage is known. `reserve_child_budget` counts what is reserved besides what is used;
the three operations that charge the session itself count what is used alone.

* `Within`: usage and reservations are within the budget; `EndsWithin`: an operation ends so.
* `within_run`: in every run whose charges leave room for the reservations, they stay so.
* `overdrawn_by_parent`: a run in which one does not. -/

namespace Smara.Harness.Allowance

open Lib.Machine (Along along_and along_of_forall inv_run)
open Lib.Table Lib.Scripts
open Goals.Schema (Json)
open Harness.Schema Harness.Engine Harness.Frames Harness.Uncertain

variable {host : Host} {b : Budget} {j j' : Journal} {tr tr' : List (Exchange Answer)} {α β : Type}

/-! ### What is used and reserved -/

/-- **Usage and reservations are within the budget** of the session. -/
structure Within (b : Budget) (j : Journal) : Prop where
  budget : j.state.budget = some b
  keyed : Keyed Prod.fst j.state.childReservations
  toolCalls : j.state.usage.toolCalls + reserved Budget.toolCalls j.state.childReservations ≤ b.toolCalls
  modelCalls : j.state.usage.modelCalls + reserved Budget.modelCalls j.state.childReservations ≤
    b.modelCalls
  billedTokens : j.state.usage.billedTokens +
    reserved Budget.billedTokens j.state.childReservations ≤ b.billedTokens

section Reserved
variable {amount : Budget → ℕ} {rs : List (String × ChildReservation)} {id : String}
  {row item : ChildReservation}

def promised (amount : Budget → ℕ) (c : String × ChildReservation) : ℕ :=
  if c.2.Reserved then amount c.2.budget else 0

theorem reserved_eq_sum : reserved amount rs = (rs.map (promised amount)).sum := by
  induction rs with
  | nil => rfl
  | cons c rs ih =>
    rw [List.map_cons, List.sum_cons, ← ih]
    unfold reserved promised
    by_cases hc : c.2.Reserved
    · rw [List.filter_cons_of_pos (by simpa using hc), if_pos hc]
      rfl
    · rw [List.filter_cons_of_neg (by simpa using hc), if_neg hc, Nat.zero_add]

theorem reserved_upsert_le (hkeyed : Keyed Prod.fst rs) :
    reserved amount (upsert Prod.fst (id, row) (fun _ => (id, row)) rs) ≤
      reserved amount rs + amount row.budget := by
  have hrow : promised amount (id, row) ≤ amount row.budget := by
    unfold promised
    split_ifs <;> simp
  rw [reserved_eq_sum, reserved_eq_sum]
  cases hl : lookup Prod.fst id rs with
  | none =>
    have hsum := sum_map_upsert_new (f := fun _ => (id, row)) (w := promised amount) (r := (id, row)) hl
    omega
  | some c =>
    have hsum := sum_map_upsert_old (f := fun _ => (id, row)) (w := promised amount) (r := (id, row))
      hkeyed hl
    omega

theorem reserved_settle (hkeyed : Keyed Prod.fst rs) (hl : lookup Prod.fst id rs = some (id, item))
    (hitem : item.Reserved) (hrow : ¬ row.Reserved) :
    reserved amount (upsert Prod.fst (id, row) (fun _ => (id, row)) rs) + amount item.budget =
      reserved amount rs := by
  have hsum := sum_map_upsert_old (f := fun _ => (id, row)) (w := promised amount) (r := (id, row))
    hkeyed hl
  have hold : promised amount (id, item) = amount item.budget := if_pos hitem
  have hnew : promised amount (id, row) = 0 := if_neg hrow
  rw [reserved_eq_sum, reserved_eq_sum]
  omega

end Reserved

/-! ### Operations that charge nothing -/

/-- The budget, the usage and the reservations of the children are as before. -/
structure Unspent (j j' : Journal) : Prop where
  budget : j'.state.budget = j.state.budget
  usage : j'.state.usage = j.state.usage
  children : j'.state.childReservations = j.state.childReservations

theorem unspent_refl (j : Journal) : Unspent j j := ⟨rfl, rfl, rfl⟩

theorem unspent_trans {j j' j'' : Journal} (h : Unspent j j') (h' : Unspent j' j'') : Unspent j j'' :=
  ⟨h'.budget.trans h.budget, h'.usage.trans h.usage, h'.children.trans h.children⟩

theorem unspent_of_others (h : Others j j') : Unspent j j' :=
  ⟨h.field State.budget fun _ _ => rfl, h.field State.usage fun _ _ => rfl,
    h.field State.childReservations fun _ _ => rfl⟩

theorem within_of_unspent (h : Unspent j j') (hj : Within b j) : Within b j' := by
  obtain ⟨hbudget, husage, hchildren⟩ := h
  refine ⟨hbudget.trans hj.budget, hchildren ▸ hj.keyed, ?_, ?_, ?_⟩
  · rw [husage, hchildren]
    exact hj.toolCalls
  · rw [husage, hchildren]
    exact hj.modelCalls
  · rw [husage, hchildren]
    exact hj.billedTokens

theorem unspent_events (j : Journal) (es : List RunEvent) : Unspent j { j with events := es } :=
  ⟨rfl, rfl, rfl⟩

theorem unspent_event {type : String} {payload : Dict} : Quiet Unspent Talk (event type payload) :=
  quiet_event unspent_events

theorem unspent_set {f : State → State} (h : ∀ s, ((f s).budget, (f s).usage, (f s).childReservations) =
    (s.budget, s.usage, s.childReservations)) : Quiet Unspent Talk (set f) := by
  refine quiet_set fun j => ?_
  obtain ⟨hbudget, hrest⟩ := Prod.mk.inj (h j.state)
  obtain ⟨husage, hchildren⟩ := Prod.mk.inj hrest
  exact ⟨hbudget, husage, hchildren⟩

abbrev EndsWithin (b : Budget) (p : Engine α) (j : Journal) : Prop :=
  ∀ tr, Holds meanwhile (fun _ j' _ => Within b j') p j tr

theorem within_quiet {p : Engine α} (hp : Quiet Unspent Talk p) (hj : Within b j) : EndsWithin b p j := by
  intro tr
  have hquiet : Holds meanwhile (fun _ j' tr' => Unspent j j' ∧ Extends Talk tr tr') p j tr :=
    holds_of_quiet hp unspent_refl unspent_trans (fun h => unspent_of_others h) fun _ _ => trivial
  exact holds_mono hquiet fun _ _ _ hq => within_of_unspent hq.1 hj

theorem within_seq {p : Engine α} {next : α → Engine β} (hp : Quiet Unspent Talk p) (hj : Within b j)
    (h : ∀ a j', Unspent j j' → EndsWithin b (next a) j') : EndsWithin b (p >>= next) j := by
  intro tr
  have hquiet : Holds meanwhile (fun _ j' tr' => Unspent j j' ∧ Extends Talk tr tr') p j tr :=
    holds_of_quiet hp unspent_refl unspent_trans (fun h => unspent_of_others h) fun _ _ => trivial
  exact holds_seq hquiet (fun a j' tr' hq => h a j' hq.1 tr') fun _ _ _ hq => within_of_unspent hq.1 hj

theorem within_get {f : Journal → α} {next : α → Engine β}
    (h : ∀ j', Others j j' → EndsWithin b (next (f j')) j') : EndsWithin b (get f >>= next) j :=
  fun tr => holds_get trivial fun j' hr => h j' hr tr

theorem within_require {p : Prop} [Decidable p] {e : Err} {next : Unit → Engine β} (hj : Within b j)
    (h : p → EndsWithin b (next ()) j) : EndsWithin b (require p e >>= next) j :=
  fun tr => holds_require trivial (fun hp => h hp tr) fun _ _ hr =>
    within_of_unspent (unspent_of_others hr) hj

theorem within_write {f : State → State} {next : Unit → Engine β}
    (h : ∀ j', Unspent j j' → EndsWithin b (next ()) { j' with state := f j'.state }) :
    EndsWithin b (set f >>= next) j :=
  fun tr => holds_put trivial fun j' hr => h j' (unspent_of_others hr) tr

theorem within_write_last {f : State → State}
    (h : ∀ j', Unspent j j' → Within b { j' with state := f j'.state }) : EndsWithin b (set f) j := by
  refine fun _ => ⟨trivial, fun j' hr => ⟨fun j'' hf => ⟨trivial, fun _ hr' => ?_⟩, nofun⟩⟩
  obtain rfl : { j' with state := f j'.state } = j'' := Except.ok.inj hf
  exact within_of_unspent (unspent_of_others hr') (h j' (unspent_of_others hr))

theorem within_then {p : Engine α} {next : α → Engine β} (hp : EndsWithin b p j)
    (h : ∀ a j', Within b j' → EndsWithin b (next a) j') : EndsWithin b (p >>= next) j :=
  fun tr => holds_seq (hp tr) (fun a j' tr' hj' => h a j' hj' tr') fun _ _ _ hj' => hj'

/-! ### Operations that charge -/

theorem budgetOf_within (hj : Within b j) (h : Unspent j j') : j'.state.budget.getD host.budget = b := by
  rw [h.budget, hj.budget]
  rfl

theorem within_charge (hj : Within b j) {u : Usage}
    (htools : u.toolCalls + reserved Budget.toolCalls j.state.childReservations ≤ b.toolCalls)
    (hmodels : u.modelCalls + reserved Budget.modelCalls j.state.childReservations ≤ b.modelCalls)
    (htokens : u.billedTokens + reserved Budget.billedTokens j.state.childReservations ≤
      b.billedTokens) : Within b { j with state := { j.state with usage := u } } :=
  ⟨hj.budget, hj.keyed, htools, hmodels, htokens⟩

/-- A model call of so many tokens, and a charge in dollars, that the check of the session admits leaves
room for what the children have reserved. -/
def RoomForModel (b : Budget) (tokens : ℕ) (dollars : ℤ) (j : Journal) : Prop :=
  let u := j.state.usage
  u.modelCalls + 1 ≤ b.modelCalls → u.billedTokens + tokens ≤ b.billedTokens →
    u.dollars + dollars ≤ b.dollars →
    u.modelCalls + 1 + reserved Budget.modelCalls j.state.childReservations ≤ b.modelCalls ∧
      u.billedTokens + tokens + reserved Budget.billedTokens j.state.childReservations ≤ b.billedTokens

theorem within_modelCharge (hj : Within b j) {tokens : ℕ} {dollars dollars' : ℤ}
    (hroom : RoomForModel b tokens dollars j)
    (hmodels : j.state.usage.modelCalls + 1 ≤ b.modelCalls)
    (htokens : j.state.usage.billedTokens + tokens ≤ b.billedTokens)
    (hdollars : j.state.usage.dollars + dollars ≤ b.dollars) :
    Within b { j with state := { j.state with usage := { j.state.usage with
      modelCalls := j.state.usage.modelCalls + 1
      billedTokens := j.state.usage.billedTokens + tokens
      dollars := dollars' } } } := by
  obtain ⟨hroomModels, hroomTokens⟩ := hroom hmodels htokens hdollars
  exact within_charge hj hj.toolCalls hroomModels hroomTokens

theorem roomForModel_of_unspent (h : Unspent j j') {tokens : ℕ} {dollars : ℤ}
    (hroom : RoomForModel b tokens dollars j) : RoomForModel b tokens dollars j' := by
  unfold RoomForModel
  rw [h.usage, h.children]
  exact hroom

theorem within_reserveModelCall (hj : Within b j) {tokens dollars : ℤ}
    (hroom : RoomForModel b (max 1 tokens).toNat dollars j) :
    EndsWithin b (reserveModelCall host tokens dollars) j := by
  refine within_get fun j₁ hothers₁ => within_get fun j₂ hothers₂ => ?_
  have h₁ : Unspent j j₁ := unspent_of_others hothers₁
  have h₂ : Unspent j₁ j₂ := unspent_of_others hothers₂
  rw [budgetOf_within hj h₁]
  have hj₂ : Within b j₂ := within_of_unspent (unspent_trans h₁ h₂) hj
  refine within_seq quiet_admitted hj₂ fun _ j₃ h₃ => ?_
  have hj₃ : Within b j₃ := within_of_unspent h₃ hj₂
  refine within_require hj₃ fun hmodels => within_require hj₃ fun htokens => within_require hj₃ fun hdollars => ?_
  refine within_seq quiet_uuid hj₃ fun id j₄ h₄ => within_write fun j₅ h₅ => ?_
  have husage : Unspent j₂ j₅ := unspent_trans h₃ (unspent_trans h₄ h₅)
  have hj₅ : Within b j₅ := within_of_unspent husage hj₂
  have hroom₅ := roomForModel_of_unspent (unspent_trans h₁ (unspent_trans h₂ husage)) hroom
  rw [← husage.usage] at hmodels htokens hdollars ⊢
  refine within_quiet ?_ (within_modelCharge hj₅ hroom₅ hmodels htokens hdollars)
  exact quiet_bind (quiet_get _) fun _ => quiet_bind (unspent_set fun _ => rfl) fun _ =>
    quiet_bind unspent_event fun _ => quiet_pure _

theorem within_reserveModelRetry (hj : Within b j) {id : String}
    (hroom : ∀ r, lookup Prod.fst id j.state.modelReservations = some r →
      RoomForModel b r.2.estimatedTokens r.2.estimatedDollars j) :
    EndsWithin b (reserveModelRetry host id) j := by
  refine within_get fun j₁ hothers₁ => ?_
  have h₁ : Unspent j j₁ := unspent_of_others hothers₁
  have hj₁ : Within b j₁ := within_of_unspent h₁ hj
  rw [← hothers₁.field State.modelReservations fun _ _ => rfl] at hroom
  cases hl : lookup Prod.fst id j₁.state.modelReservations with
  | none => exact within_quiet (quiet_raise _) hj₁
  | some r =>
    replace hroom := roomForModel_of_unspent h₁ (hroom r hl)
    refine within_get fun j₂ hothers₂ => within_get fun j₃ hothers₃ => ?_
    have h₂ : Unspent j₁ j₂ := unspent_of_others hothers₂
    have h₃ : Unspent j₂ j₃ := unspent_of_others hothers₃
    rw [budgetOf_within hj₁ h₂]
    have hj₃ : Within b j₃ := within_of_unspent (unspent_trans h₂ h₃) hj₁
    refine within_seq quiet_admitted hj₃ fun _ j₄ h₄ => ?_
    have hj₄ : Within b j₄ := within_of_unspent h₄ hj₃
    refine within_require hj₄ fun hmodels => within_require hj₄ fun htokens =>
      within_require hj₄ fun hdollars => within_write fun j₅ h₅ => ?_
    have husage : Unspent j₃ j₅ := unspent_trans h₄ h₅
    have hj₅ : Within b j₅ := within_of_unspent husage hj₃
    have hroom₅ := roomForModel_of_unspent (unspent_trans h₂ (unspent_trans h₃ husage)) hroom
    rw [← husage.usage] at hmodels htokens hdollars ⊢
    refine within_quiet ?_ (within_modelCharge hj₅ hroom₅ hmodels htokens hdollars)
    exact quiet_bind (unspent_set fun _ => rfl) fun _ => unspent_event

theorem within_reconcileModelCall (hj : Within b j) {id status : String} {actual : Option ℤ}
    {requestId : Option String} {retries : ℕ}
    (hactual : ∀ r, lookup Prod.fst id j.state.modelReservations = some r →
      ∀ n, actual = some n → n ≤ r.2.estimatedTokens) :
    EndsWithin b (reconcileModelCall id actual requestId status retries) j := by
  refine within_get fun j₁ hothers₁ => ?_
  have hj₁ : Within b j₁ := within_of_unspent (unspent_of_others hothers₁) hj
  rw [← hothers₁.field State.modelReservations fun _ _ => rfl] at hactual
  cases hl : lookup Prod.fst id j₁.state.modelReservations with
  | none => exact within_quiet (quiet_bind (quiet_pure _) fun _ => unspent_event) hj₁
  | some r =>
    cases actual with
    | none => exact within_quiet (quiet_bind (quiet_pure _) fun _ => unspent_event) hj₁
    | some n =>
      have hn : n ≤ r.2.estimatedTokens := hactual r hl n rfl
      refine within_then ?_ fun _ _ hj' => within_quiet unspent_event hj'
      refine within_get fun j₂ hothers₂ => ?_
      refine within_write_last fun j₃ h₃ => ?_
      have husage : Unspent j₁ j₃ := unspent_trans (unspent_of_others hothers₂) h₃
      have hj₃ : Within b j₃ := within_of_unspent husage hj₁
      rw [← h₃.usage]
      refine within_charge hj₃ hj₃.toolCalls hj₃.modelCalls ?_
      have htokens := hj₃.billedTokens
      have hless : (max 0 ((j₃.state.usage.billedTokens : ℤ) - r.2.estimatedTokens + n)).toNat ≤
          j₃.state.usage.billedTokens := by omega
      exact le_trans (Nat.add_le_add_right hless _) htokens

theorem within_reserveChildBudget (hj : Within b j) {allocation : Budget}
    {depth maxDepth maxFanout : ℕ} :
    EndsWithin b (reserveChildBudget host allocation depth maxDepth maxFanout) j := by
  refine within_seq (quiet_get _) hj fun _ j₁ h₁ => ?_
  have hj₁ : Within b j₁ := within_of_unspent h₁ hj
  refine within_require hj₁ fun _ => within_seq (quiet_get _) hj₁ fun _ j₂ h₂ => ?_
  have hj₂ : Within b j₂ := within_of_unspent h₂ hj₁
  refine within_require hj₂ fun _ => within_require hj₂ fun _ => ?_
  refine within_get fun j₃ h₃ => within_get fun j₄ h₄ => within_get fun j₅ h₅ => ?_
  have h₃₄ : Unspent j₃ j₄ := unspent_of_others h₄
  have h₄₅ : Unspent j₄ j₅ := unspent_of_others h₅
  rw [budgetOf_within hj₂ (unspent_of_others h₃), ← h₄₅.usage]
  have hj₅ : Within b j₅ :=
    within_of_unspent (unspent_trans (unspent_of_others h₃) (unspent_trans h₃₄ h₄₅)) hj₂
  refine within_require hj₅ fun _ => within_require hj₅ fun htools => within_require hj₅ fun hmodels =>
    within_require hj₅ fun htokens => within_require hj₅ fun _ => ?_
  refine within_seq quiet_uuid hj₅ fun id j₆ h₆ => within_write fun j₇ h₇ => ?_
  have h₅₇ : Unspent j₅ j₇ := unspent_trans h₆ h₇
  refine within_quiet (quiet_bind unspent_event fun _ => quiet_pure _) ?_
  have hj₇ : Within b j₇ := within_of_unspent h₅₇ hj₅
  rw [← h₅₇.usage, ← h₅₇.children] at htools hmodels htokens
  rw [← h₅₇.children]
  let row : ChildReservation := { budget := allocation, depth }
  have hreserves (amount : Budget → ℕ) :
      reserved amount (upsert Prod.fst ("child_" ++ id, row) (fun _ => ("child_" ++ id, row))
        j₇.state.childReservations) ≤ reserved amount j₇.state.childReservations + amount allocation :=
    reserved_upsert_le hj₇.keyed
  refine ⟨hj₇.budget, hj₇.keyed.upsert fun _ _ => rfl, ?_, ?_, ?_⟩
  · refine (Nat.add_le_add_left (hreserves Budget.toolCalls) _).trans ?_
    rw [← Nat.add_assoc]
    exact htools
  · refine (Nat.add_le_add_left (hreserves Budget.modelCalls) _).trans ?_
    rw [← Nat.add_assoc]
    exact hmodels
  · refine (Nat.add_le_add_left (hreserves Budget.billedTokens) _).trans ?_
    rw [← Nat.add_assoc]
    exact htokens

theorem within_reconcileChildBudget (hj : Within b j) {id : String} {usage : Usage} :
    EndsWithin b (reconcileChildBudget id usage) j := by
  refine within_get fun j₁ h₁ => ?_
  have hj₁ : Within b j₁ := within_of_unspent (unspent_of_others h₁) hj
  cases hl : lookup Prod.fst id j₁.state.childReservations with
  | none => exact within_quiet (quiet_raise _) hj₁
  | some c =>
    obtain ⟨id', item⟩ := c
    obtain rfl : id' = id := key_of_lookup hl
    refine within_require hj₁ fun hitem => within_require hj₁ fun htools => within_require hj₁ fun hmodels =>
      within_require hj₁ fun htokens => within_require hj₁ fun _ => ?_
    refine within_get fun j₂ h₂ => within_write fun j₃ h₃ => within_write fun j₄ h₄ => ?_
    refine within_quiet unspent_event ?_
    have h₁₂ : Unspent j₁ j₂ := unspent_of_others h₂
    have h₁₃ : Unspent j₁ j₃ := unspent_trans h₁₂ h₃
    have hgives (amount : Budget → ℕ) :
        reserved amount (upsert Prod.fst (id', { item with usage := some usage })
          (fun _ => (id', { item with usage := some usage })) j₁.state.childReservations) +
          amount item.budget = reserved amount j₁.state.childReservations :=
      reserved_settle hj₁.keyed hl hitem (Option.some_ne_none usage)
    refine ⟨h₄.budget.trans (h₁₃.budget.trans hj₁.budget), hj₁.keyed.upsert fun _ _ => rfl, ?_, ?_, ?_⟩
    · have hwithin := hj₁.toolCalls
      have hgiven := hgives Budget.toolCalls
      simp only [h₄.usage, h₁₂.usage] at hwithin ⊢
      omega
    · have hwithin := hj₁.modelCalls
      have hgiven := hgives Budget.modelCalls
      simp only [h₄.usage, h₁₂.usage] at hwithin ⊢
      omega
    · have hwithin := hj₁.billedTokens
      have hgiven := hgives Budget.billedTokens
      simp only [h₄.usage, h₁₂.usage] at hwithin ⊢
      omega

/-! ### The execution of a call -/

/-- Nothing is charged, and the calls are as before. -/
structure Steady (j j' : Journal) : Prop where
  unspent : Unspent j j'
  calls : j'.calls = j.calls

theorem steady_refl (j : Journal) : Steady j j := ⟨unspent_refl j, rfl⟩

theorem steady_trans {j j' j'' : Journal} (h : Steady j j') (h' : Steady j' j'') : Steady j j'' :=
  ⟨unspent_trans h.unspent h'.unspent, h'.calls.trans h.calls⟩

theorem steady_of_others (h : Others j j') : Steady j j' := ⟨unspent_of_others h, h.calls⟩

theorem within_steady {p : Engine α} {next : α → Engine β} (hp : Quiet Steady Talk p) (hj : Within b j)
    (h : ∀ a j', Steady j j' → EndsWithin b (next a) j') : EndsWithin b (p >>= next) j := by
  intro tr
  have hquiet : Holds meanwhile (fun _ j' tr' => Steady j j' ∧ Extends Talk tr tr') p j tr :=
    holds_of_quiet hp steady_refl steady_trans (fun h => steady_of_others h)
      fun _ _ => trivial
  exact holds_seq hquiet (fun a j' tr' hq => h a j' hq.1 tr') fun _ _ _ hq =>
    within_of_unspent hq.1.unspent hj

theorem quiet_attempt {keeps : Journal → Journal → Prop} {f : Journal → Except Err Journal}
    (h : ∀ j j', f j = .ok j' → keeps j j') : Quiet keeps Talk (attempt f : Engine Unit) := ⟨h, trivial⟩

theorem unspent_insert {row : CallRow} :
    Quiet Unspent Talk (attempt (Journal.insertCall row) : Engine Unit) := by
  refine quiet_attempt fun j j' hf => ?_
  unfold Journal.insertCall at hf
  split_ifs at hf
  obtain rfl := Except.ok.inj hf
  exact ⟨rfl, rfl, rfl⟩

theorem unspent_updCall {id : String} {f : CallRow → CallRow} :
    Quiet Unspent Talk (put (Journal.updCall id f) : Engine Unit) := quiet_put fun _ => ⟨rfl, rfl, rfl⟩

theorem unspent_reuse {call : ToolCall} {fp revision : String} {receipt : Dict} :
    Quiet Unspent Talk (reuse host call fp revision receipt) := by
  refine quiet_bind ?_ fun _ => quiet_bind (quiet_get _) fun _ => quiet_bind (unspent_set fun _ => rfl)
    fun _ => quiet_bind ?_ fun _ => ?_
  · refine quiet_bind (quiet_get _) fun existing => ?_
    cases existing with
    | some row => exact quiet_pure _
    | none => exact quiet_bind (quiet_get _) fun _ => unspent_insert
  · exact quiet_bind unspent_event fun _ => quiet_ite unspent_event (quiet_pure _)
  · unfold reusedAnswer
    split
    · exact quiet_raise _
    · exact quiet_pure _

theorem unspent_replay {result : Option Dict} : Quiet Unspent Talk (replay result) := by
  unfold replay
  split
  · exact quiet_raise _
  · split
    · exact quiet_raise _
    · exact quiet_pure _

theorem unspent_record {callId : String} {result : ToolResult} :
    Quiet Unspent Talk (record callId result) := by
  refine quiet_bind quiet_putJson fun aid => quiet_bind ?_ fun after => quiet_bind unspent_updCall fun _ =>
    quiet_bind unspent_event fun _ => quiet_bind ?_ fun _ => quiet_pure _
  · unfold revisionAfter
    split
    · exact quiet_currentWorkspaceRevision
    · exact quiet_currentWorkspaceRevision
    · exact quiet_pure _
  · exact quiet_ite (quiet_bind quiet_uuid fun _ => quiet_bind quiet_now fun _ =>
      quiet_bind (quiet_put fun _ => ⟨rfl, rfl, rfl⟩) fun _ => unspent_event) (quiet_pure _)

theorem unspent_remember {call : ToolCall} {fp : String} {cache : List (String × Dict)}
    {result : ToolResult} {receipt : Dict} :
    Quiet Unspent Talk (remember call fp cache result receipt) :=
  quiet_ite (unspent_set fun _ => rfl) (quiet_pure _)

theorem unspent_outcomeOf {callId : String} {outcome : Outcome} :
    Quiet Unspent Talk (outcomeOf callId outcome) := by
  cases outcome with
  | returned r => exact quiet_pure _
  | other => exact quiet_pure _
  | raised kind message => exact quiet_raise _
  | interrupted => exact quiet_raise _

/-- A tool call that the check of the session admits leaves room for what the children have reserved. -/
def RoomForTool (b : Budget) (j : Journal) : Prop :=
  j.state.usage.toolCalls + 1 ≤ b.toolCalls →
    j.state.usage.toolCalls + 1 + reserved Budget.toolCalls j.state.childReservations ≤ b.toolCalls

theorem within_admitCall (hj : Within b j) {callId name : String} {arguments : Dict}
    (hroom : j.state.usage.toolCalls + 1 + reserved Budget.toolCalls j.state.childReservations ≤
      b.toolCalls) : EndsWithin b (admitCall host j.state.usage callId name arguments) j := by
  refine within_write fun j₁ h₁ => ?_
  have hj₁ : Within b j₁ := within_of_unspent h₁ hj
  rw [← h₁.usage, ← h₁.children] at hroom
  rw [← h₁.usage]
  refine within_quiet ?_ (within_charge hj₁ hroom hj₁.modelCalls hj₁.billedTokens)
  exact quiet_bind quiet_currentWorkspaceRevision fun _ => quiet_bind unspent_updCall fun _ =>
    quiet_bind unspent_event fun _ => quiet_pure _

theorem within_executeFresh (hj : Within b j) (hroom : RoomForTool b j) {call : ToolCall} {fp : String}
    {cache : List (String × Dict)} : EndsWithin b (executeFresh host b call fp cache) j := by
  refine within_get fun j₁ hothers => ?_
  have h₁ : Unspent j j₁ := unspent_of_others hothers
  have hj₁ : Within b j₁ := within_of_unspent h₁ hj
  refine within_require hj₁ fun htools => ?_
  rw [h₁.usage] at htools
  have hleft := hroom htools
  rw [← h₁.usage, ← h₁.children] at hleft
  refine within_then (within_admitCall hj₁ hleft) fun before j₂ hj₂ tr => ?_
  refine holds_request trivial (fun _ _ => trivial) fun j₃ hr₃ outcome _ => ?_
  have hj₃ : Within b j₃ := within_of_unspent (unspent_of_others hr₃) hj₂
  refine within_quiet ?_ hj₃ _
  exact quiet_bind unspent_outcomeOf fun _ => quiet_bind unspent_record fun _ =>
    quiet_bind unspent_remember fun _ => quiet_bind
      (quiet_progress unspent_events fun _ _ => ⟨rfl, rfl, rfl⟩) fun _ => quiet_pure _

def Chargeable (call : ToolCall) (j : Journal) : Prop :=
  ∀ row, j.call call.callId = some row →
    row.state ≠ .completed ∧ ¬ (row.state = .admitted ∧ row.mutating)

theorem within_executeRow (hj : Within b j) {call : ToolCall}
    (hroom : Chargeable call j → RoomForTool b j) {fp : String} {cache : List (String × Dict)} :
    EndsWithin b (executeRow host b call fp cache) j := by
  refine within_get fun j₁ hothers => ?_
  have h₁ : Unspent j j₁ := unspent_of_others hothers
  have hj₁ : Within b j₁ := within_of_unspent h₁ hj
  have hcall : j₁.call call.callId = j.call call.callId := by
    unfold Journal.call
    rw [hothers.calls]
  have hroom₁ : Chargeable call j₁ → RoomForTool b j₁ := by
    unfold Chargeable RoomForTool
    rw [hcall, h₁.usage, h₁.children]
    exact hroom
  cases hrow : j₁.call call.callId with
  | none =>
    have hfree : Chargeable call j₁ := fun row h => by
      rw [hrow] at h
      cases h
    refine within_seq (quiet_get _) hj₁ fun _ j₂ h₂ => ?_
    refine within_seq unspent_insert (within_of_unspent h₂ hj₁) fun _ j₃ h₃ => ?_
    have h₁₃ : Unspent j₁ j₃ := unspent_trans h₂ h₃
    refine within_executeFresh (within_of_unspent h₁₃ hj₁) ?_
    unfold RoomForTool
    rw [h₁₃.usage, h₁₃.children]
    exact hroom₁ hfree
  | some row =>
    change EndsWithin b (if row.state = .completed then replay row.result
      else if row.state = .admitted ∧ row.mutating then
        raise (.runtimeError ("uncertain mutation: " ++ call.callId))
      else executeFresh host b call fp cache) j₁
    split_ifs with hcompleted huncertain
    · exact within_quiet unspent_replay hj₁
    · exact within_quiet (quiet_raise _) hj₁
    · refine within_executeFresh hj₁ (hroom₁ fun row' h => ?_)
      obtain rfl : row = row' := Option.some.inj (hrow.symm.trans h)
      exact ⟨hcompleted, huncertain⟩

theorem within_executeIncremental (hj : Within b j) {call : ToolCall}
    (hroom : Chargeable call j → RoomForTool b j) : EndsWithin b (executeIncremental host call) j := by
  have hsteady : Quiet Steady Talk (requireRevision call) :=
    quiet_ite (quiet_pure _) (quiet_set fun _ => ⟨⟨rfl, rfl, rfl⟩, rfl⟩)
  refine within_steady hsteady hj fun _ j₁ h₁ => ?_
  have hj₁ : Within b j₁ := within_of_unspent h₁.unspent hj
  refine within_steady quiet_admitted hj₁ fun _ j₂ h₂ => ?_
  have hj₂ : Within b j₂ := within_of_unspent h₂.unspent hj₁
  refine within_get fun j₃ h₃ => ?_
  rw [budgetOf_within hj₂ (unspent_of_others h₃)]
  have hj₃ : Within b j₃ := within_of_unspent (unspent_of_others h₃) hj₂
  refine within_steady quiet_currentWorkspaceRevision hj₃ fun revision j₄ h₄ => ?_
  have hj₄ : Within b j₄ := within_of_unspent h₄.unspent hj₃
  refine within_get fun j₅ h₅ => ?_
  have hj₅ : Within b j₅ := within_of_unspent (unspent_of_others h₅) hj₄
  have hsame : Unspent j j₅ := unspent_trans h₁.unspent (unspent_trans h₂.unspent
    (unspent_trans (unspent_of_others h₃) (unspent_trans h₄.unspent (unspent_of_others h₅))))
  have hcalls : j₅.calls = j.calls := by rw [h₅.calls, h₄.calls, h₃.calls, h₂.calls, h₁.calls]
  have hroom₅ : Chargeable call j₅ → RoomForTool b j₅ := by
    unfold Chargeable RoomForTool Journal.call
    rw [hcalls, hsame.usage, hsame.children]
    exact hroom
  split
  · exact within_quiet unspent_reuse hj₅
  · exact within_executeRow hj₅ hroom₅

/-! ### Runs -/

/-- A session that has begun: nothing is spent or reserved. -/
structure Begun (b : Budget) (j : Journal) : Prop where
  budget : j.state.budget = some b
  usage : j.state.usage = {}
  children : j.state.childReservations = []

theorem within_of_begun (h : Begun b j) : Within b j := by
  obtain ⟨hbudget, husage, hchildren⟩ := h
  refine ⟨hbudget, hchildren ▸ List.nodup_nil, ?_, ?_, ?_⟩
  all_goals
    rw [husage, hchildren]
    exact Nat.zero_le _

/-- What the session promises of an operation: it is one of the six, and it reports at most the tokens
that were reserved. -/
def Assumed (j : Journal) : Op → Prop
  | .reserveModelCall .. | .reserveModelRetry _ | .reserveChildBudget .. | .reconcileChildBudget ..
  | .executeIncremental _ => True
  | .reconcileModelCall id actual _ _ _ =>
    ∀ r, lookup Prod.fst id j.state.modelReservations = some r →
      ∀ n, actual = some n → n ≤ r.2.estimatedTokens
  | _ => False

/-- **An operation that charges the session itself leaves room** for what its children have reserved,
if its own checks admit it. -/
def Roomy (b : Budget) (j : Journal) : Op → Prop
  | .reserveModelCall tokens dollars => RoomForModel b (max 1 tokens).toNat dollars j
  | .reserveModelRetry id => ∀ r, lookup Prod.fst id j.state.modelReservations = some r →
      RoomForModel b r.2.estimatedTokens r.2.estimatedDollars j
  | .executeIncremental call => Chargeable call j → RoomForTool b j
  | _ => True

theorem within_program (hj : Within b j) {op : Op} (hassumed : Assumed j op) (hroomy : Roomy b j op) :
    EndsWithin b (program (host, op)) j := by
  have hsilent {α : Type} {p : Engine α} (h : EndsWithin b p j) : EndsWithin b (silent p) j :=
    within_then h fun _ _ hj' => within_quiet (quiet_pure _) hj'
  cases op with
  | reserveModelCall tokens dollars => exact hsilent (within_reserveModelCall hj hroomy)
  | reserveModelRetry id => exact within_reserveModelRetry hj hroomy
  | reconcileModelCall id actual requestId status retries => exact within_reconcileModelCall hj hassumed
  | reserveChildBudget allocation depth maxDepth maxFanout =>
    exact hsilent (within_reserveChildBudget hj)
  | reconcileChildBudget id usage => exact within_reconcileChildBudget hj
  | executeIncremental call => exact hsilent (within_executeIncremental hj hroomy)
  | _ => exact absurd hassumed not_false

def Assumes (m : Session) : Happening → Prop
  | .start (_, op) => m.running = none → Assumed m.store op
  | .crash _ => False
  | _ => True

def LeavesRoom (b : Budget) (m : Session) : Happening → Prop
  | .start (_, op) => m.running = none → Roomy b m.store op
  | _ => True

/-- **In a run whose own charges leave room, usage and reservations stay within the budget.** -/
theorem within_run {j : Journal} (hbegun : Begun b j) {happenings : List Happening}
    (hassumes : Along (next program cancel) Assumes { store := j } happenings)
    (hroom : Along (next program cancel) (LeavesRoom b) { store := j } happenings)
    (hrest : (Smara.Lib.Machine.run (next program cancel) { store := j } happenings).running = none) :
    Within b (Smara.Lib.Machine.run (next program cancel) { store := j } happenings).store := by
  have hguarded : Guarded (fun _ => meanwhile) (fun j _ => Within b j)
      (Smara.Lib.Machine.run (next program cancel) { store := j } happenings) := by
    refine inv_run (fun m e hm he => ?_) (within_of_begun hbegun) (along_and.mpr ⟨hassumes, hroom⟩)
    cases e with
    | start call =>
      obtain ⟨s, running, tr⟩ := m
      cases running with
      | none => exact within_program hm (he.1 rfl) (he.2 rfl) tr
      | some c => exact hm
    | step answer => exact guarded_step hm answer fun _ _ _ _ => trivial
    | crash asking => exact absurd he.1 not_false
    | disturb x =>
      exact guarded_disturb hm x (fun _ s => others_cancel x s)
        fun s _ hs => within_of_unspent (unspent_of_others (others_cancel x s)) hs
  unfold Guarded at hguarded
  rw [hrest] at hguarded
  exact hguarded

/-! ### A session with little -/

theorem minute_valid : 0 < TaskStore.Schema.seconds 60 ∧ (0 : ℤ) ≤ 1000000 := by decide

def frugal : Host :=
  { engine with budget := { toolCalls := 1, modelCalls := 1, billedTokens := 1000, valid := minute_valid } }

def fresh : Journal :=
  (arrived ([.start (frugal, .beginIncremental "Write a note")] ++ statements 13)).store

theorem begun_fresh : Begun frugal.budget fresh := ⟨rfl, rfl, rfl⟩

def does (op : Op) : List Happening := .start (frugal, op) :: statements 40

theorem assumes_does {op : Op} (hop : ∀ j, Assumed j op) : ∀ e ∈ does op, ∀ m, Assumes m e := by
  intro e he m
  rcases List.mem_cons.mp he with rfl | he
  · exact fun _ => hop m.store
  · obtain rfl := List.eq_of_mem_replicate he
    exact trivial

def everything : Op :=
  .reserveChildBudget { toolCalls := 1, modelCalls := 1, billedTokens := 1000, valid := minute_valid } 1 1 4

/-- The session goes on by itself, and then its child has done what it may. -/
def overdrawn : List Happening :=
  does everything ++ (does (.reserveModelCall 1000 0) ++ (does (.executeIncremental
    { callId := "call", name := "read_file", arguments := [], workspaceId := "/work" }) ++
  does (.reconcileChildBudget "child_uuid" { toolCalls := 1, modelCalls := 1, billedTokens := 1000 })))

/-- **A session charges what its child has reserved.** In the end it has used twice its budget. -/
theorem overdrawn_by_parent :
    Begun frugal.budget fresh ∧ Along (next program cancel) Assumes { store := fresh } overdrawn ∧
      (Smara.Lib.Machine.run (next program cancel) { store := fresh } overdrawn).running.isNone ∧
      (Smara.Lib.Machine.run (next program cancel) { store := fresh } overdrawn).store.state.usage =
        { toolCalls := 2, modelCalls := 2, billedTokens := 2000, dollars := 0 } := by
  refine ⟨begun_fresh, ?_, ?_⟩
  · have hall : ∀ e ∈ overdrawn, ∀ m, Assumes m e := by
      intro e he
      rcases List.mem_append.mp he with he | he
      · exact assumes_does (by intro; trivial) e he
      rcases List.mem_append.mp he with he | he
      · exact assumes_does (by intro; trivial) e he
      rcases List.mem_append.mp he with he | he
      · exact assumes_does (by intro; trivial) e he
      · exact assumes_does (by intro; trivial) e he
    exact (along_of_forall hall).mono fun m _ h => h m
  · decide_cbv

/-- A child reserves what the session leaves, and then its usage is known. -/
def delegated : List Happening :=
  does (.reserveModelCall 100 0) ++
    (does (.reserveChildBudget { toolCalls := 1, modelCalls := 0, billedTokens := 900, valid := minute_valid } 1 1 4) ++
      does (.reconcileChildBudget "child_uuid" { toolCalls := 1, billedTokens := 500 }))

/-- A session that leaves its child what it has reserved. -/
theorem within_run_delegated :
    Within frugal.budget (Smara.Lib.Machine.run (next program cancel) { store := fresh } delegated).store := by
  have hall : ∀ e ∈ delegated, ∀ m, Assumes m e := by
    intro e he
    rcases List.mem_append.mp he with he | he
    · exact assumes_does (by intro; trivial) e he
    rcases List.mem_append.mp he with he | he
    · exact assumes_does (by intro; trivial) e he
    · exact assumes_does (by intro; trivial) e he
  have hfirst : LeavesRoom frugal.budget { store := fresh } (.start (frugal, .reserveModelCall 100 0)) := by
    intro _ _ _ _
    decide
  have hroom : ∀ e ∈ delegated.tail, ∀ m, LeavesRoom frugal.budget m e := by
    intro e he m
    rcases List.mem_append.mp he with he | he
    · obtain rfl := List.eq_of_mem_replicate he
      exact trivial
    rcases List.mem_append.mp he with he | he
    all_goals
      rcases List.mem_cons.mp he with rfl | he
      · exact fun _ => trivial
      · obtain rfl := List.eq_of_mem_replicate he
        exact trivial
  refine within_run begun_fresh ((along_of_forall hall).mono fun m _ h => h m)
    ⟨hfirst, (along_of_forall hroom).mono fun m _ h => h m⟩ ?_
  have hnone : (Smara.Lib.Machine.run (next program cancel) { store := fresh } delegated).running.isNone := by
    decide_cbv
  exact Option.isNone_iff_eq_none.mp hnone

end Smara.Harness.Allowance
