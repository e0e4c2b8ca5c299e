import Smara.Lib.Machine
import Smara.Store.Integrations

/-! # External actions are handed out once

An action that acts outside is handed out to a worker once, unless a claim finds it running with an expired lease:
then it is approved again, and handed out once more.

* `Op`, `step`, `handedOut`: the calls, and the external action that a claim hands out.
* `Timely`: no claim finds an external action running with an expired lease.
* `handedOut_once`: then no external action is handed out twice. -/

namespace Smara.Store.Replays

open Lib.Machine Lib.Table Lib.Transaction TaskStore.Schema Store.Schema
open Store.Integrations

inductive Op
  | request (env : Env) (accountId provider action preview idempotencyKey payload : String)
  | decide (accountId : String) (actionId : Uuid) (approved : Bool) (note : String)
      (editedPreview editedPayload : Option String)
  | claim (env : Env) (workerId : String) (leaseSeconds : ℤ)
  | complete (actionId : Uuid) (workerId : String) (result error : Option String)
  | fail (env : Env) (actionId : Uuid) (workerId error : String) (retryable : Bool) (retryDelaySeconds : ℤ)

def step (st : StoreDb) : Op → StoreDb
  | .request env accountId provider action preview idempotencyKey payload =>
    (requestIntegrationAction env accountId provider action preview idempotencyKey payload st).2
  | .decide accountId actionId approved note editedPreview editedPayload =>
    (decideIntegrationAction accountId actionId approved note editedPreview editedPayload st).2
  | .claim env workerId leaseSeconds => (claimIntegrationAction env workerId leaseSeconds st).2
  | .complete actionId workerId result error => (completeIntegrationAction actionId workerId result error st).2
  | .fail env actionId workerId error retryable retryDelaySeconds =>
    (failIntegrationAction env actionId workerId error retryable retryDelaySeconds st).2

def handedOut (st : StoreDb) : Op → Option Uuid
  | .claim env workerId leaseSeconds =>
    match (claimIntegrationAction env workerId leaseSeconds st).1 with
    | .ok (some row) => if row.risk = .external then some row.id else none
    | _ => none
  | _ => none

/-- A claim finds no external action running with an expired lease. -/
def Timely (st : StoreDb) : Op → Prop
  | .claim env _ _ => ∀ r ∈ st.actions, Lapsed env.now r → r.risk = .read
  | _ => True

/-! ### Actions that have begun -/

def Started (r : IntegrationAction) : Prop := r.status = .running ∨ r.status = .completed ∨ r.status = .failed

def Begun (st : StoreDb) (id : Uuid) : Prop := ∃ r ∈ st.actions, r.id = id ∧ r.risk = .external ∧ Started r

variable {st st' : StoreDb}

theorem keyed_transact {β : Type} {body : StoreDb → Except Err (β × StoreDb)}
    (h : Keyed IntegrationAction.id st.actions) : Keyed IntegrationAction.id (transact body st).2.actions := by
  rcases transact_cases body st with ⟨b, st', -, hvalid, heq⟩ | ⟨e, heq⟩
  · rw [heq]
    exact hvalid.actions
  · rw [heq]
    exact h

theorem keyed_step (h : Keyed IntegrationAction.id st.actions) (op : Op) :
    Keyed IntegrationAction.id (step st op).actions := by
  cases op with
  | request | decide | claim | complete | fail => exact keyed_transact h

theorem keyed_upd {p : IntegrationAction → Prop} [DecidablePred p] {f : IntegrationAction → IntegrationAction}
    (hid : ∀ r, (f r).id = r.id) (h : Keyed IntegrationAction.id st.actions) :
    Keyed IntegrationAction.id (updActions p f st).actions :=
  (keyed_updateWhere fun r _ => hid r).mpr h

theorem begun_transact {β : Type} {body : StoreDb → Except Err (β × StoreDb)} {id : Uuid}
    (h : ∀ b st', body st = .ok (b, st') → Begun st' id) (hbegun : Begun st id) : Begun (transact body st).2 id := by
  rcases transact_cases body st with ⟨b, st', hbody, -, heq⟩ | ⟨e, heq⟩
  · rw [heq]
    exact h b st' hbody
  · rw [heq]
    exact hbegun

theorem Begun.upd {p : IntegrationAction → Prop} [DecidablePred p] {f : IntegrationAction → IntegrationAction} {id : Uuid}
    (h : Begun st id) (hid : ∀ r, (f r).id = r.id) (hrisk : ∀ r, (f r).risk = r.risk)
    (hstarted : ∀ r ∈ st.actions, p r → r.risk = .external → Started r → Started (f r)) :
    Begun (updActions p f st) id := by
  obtain ⟨r, hr, rfl, hexternal, hs⟩ := h
  refine ⟨if p r then f r else r, mem_updateWhere.mpr ⟨r, hr, rfl⟩, ?_, ?_, ?_⟩
  · split_ifs
    · exact hid r
    · rfl
  · split_ifs
    · rw [hrisk, hexternal]
    · exact hexternal
  · split_ifs with hp
    · exact hstarted r hr hp hexternal hs
    · exact hs

theorem eq_of_find {p : IntegrationAction → Prop} [DecidablePred p] {row : IntegrationAction}
    (hkeyed : Keyed IntegrationAction.id st.actions) (h : (st.actions.find? fun r => p r) = some row) :
    p row ∧ ∀ r ∈ st.actions, r.id = row.id → r = row := by
  have hrow : row ∈ st.actions := List.mem_of_find?_eq_some h
  have hp := List.find?_some h
  exact ⟨of_decide_eq_true hp, fun r hr hid => hkeyed.eq_of_key hr hrow hid⟩

/-! ### One call -/

theorem begun_decide {accountId note : String} {actionId id : Uuid} {approved : Bool}
    {editedPreview editedPayload : Option String} (hkeyed : Keyed IntegrationAction.id st.actions) (h : Begun st id) :
    Begun (decideIntegrationAction accountId actionId approved note editedPreview editedPayload st).2 id := by
  refine begun_transact (fun b st' hbody => ?_) h
  cases hfind : st.actions.find? fun r => r.id = actionId ∧ r.accountId = accountId with
  | none =>
    rw [hfind] at hbody
    cases hbody
  | some row =>
    obtain ⟨⟨hrow, -⟩, hunique⟩ := eq_of_find hkeyed hfind
    rw [hfind] at hbody
    by_cases hstatus : row.status ≠ .awaitingApproval
    · simp only [if_pos hstatus] at hbody
      cases hbody
    · simp only [if_neg hstatus] at hbody
      cases hbody
      refine h.upd (fun _ => rfl) (fun _ => rfl) fun r hr hid hexternal hs => ?_
      -- the action awaits approval, and has not been handed out
      rw [hunique r hr (hid.trans hrow.symm), Started, not_not.mp hstatus] at hs
      simp at hs

theorem begun_giveBack {now : Time} {id : Uuid} (htimely : ∀ r ∈ st.actions, Lapsed now r → r.risk = .read)
    (h : Begun st id) : Begun (giveBack now st) id := by
  refine h.upd (fun _ => rfl) (fun _ => rfl) fun r hr hlapsed hexternal => ?_
  rw [htimely r hr hlapsed] at hexternal
  cases hexternal

theorem begun_claim {env : Env} {workerId : String} {leaseSeconds : ℤ} {id : Uuid}
    (htimely : ∀ r ∈ st.actions, Lapsed env.now r → r.risk = .read) (h : Begun st id) :
    Begun (claimIntegrationAction env workerId leaseSeconds st).2 id := by
  refine begun_transact (fun b st' hbody => ?_) h
  have hback := begun_giveBack htimely h
  simp only at hbody
  split at hbody
  · cases hbody
    exact hback
  · cases hbody
    exact hback.upd (fun _ => rfl) (fun _ => rfl) fun _ _ _ _ _ => Or.inl rfl

theorem begun_complete {actionId id : Uuid} {workerId : String} {result error : Option String} (h : Begun st id) :
    Begun (completeIntegrationAction actionId workerId result error st).2 id := by
  refine begun_transact (fun b st' hbody => ?_) h
  split at hbody
  · cases hbody
  · cases hbody
    refine h.upd (fun r => ?_) (fun r => ?_) fun r _ _ _ _ => ?_
    · split <;> rfl
    · split <;> rfl
    · split
      · exact Or.inr (Or.inr rfl)
      · exact Or.inr (Or.inl rfl)

theorem begun_fail {env : Env} {actionId id : Uuid} {workerId error : String} {retryable : Bool}
    {retryDelaySeconds : ℤ} (hkeyed : Keyed IntegrationAction.id st.actions) (h : Begun st id) :
    Begun (failIntegrationAction env actionId workerId error retryable retryDelaySeconds st).2 id := by
  refine begun_transact (fun b st' hbody => ?_) h
  cases hfind : st.actions.find? fun r => Holds actionId workerId r with
  | none =>
    rw [hfind] at hbody
    cases hbody
  | some row =>
    obtain ⟨⟨hrow, -⟩, hunique⟩ := eq_of_find hkeyed hfind
    rw [hfind] at hbody
    simp only at hbody
    split_ifs at hbody with hretry
    · cases hbody
      refine h.upd (fun _ => rfl) (fun _ => rfl) fun r hr hid hexternal _ => ?_
      -- only reads are tried again
      rw [hunique r hr (hid.trans hrow.symm), hretry.2.1] at hexternal
      cases hexternal
    · cases hbody
      exact h.upd (fun _ => rfl) (fun _ => rfl) fun _ _ _ _ _ => Or.inr (Or.inr rfl)

theorem begun_request {env : Env} {accountId provider action preview idempotencyKey payload : String} {id : Uuid}
    (h : Begun st id) :
    Begun (requestIntegrationAction env accountId provider action preview idempotencyKey payload st).2 id := by
  refine begun_transact (fun b st' hbody => ?_) h
  cases hconnection : integration accountId provider st with
  | error e =>
    rw [hconnection] at hbody
    cases hbody
  | ok connection =>
    rw [hconnection] at hbody
    simp only [bind, Except.bind] at hbody
    split at hbody
    · cases hbody
      exact h
    · cases hbody
      obtain ⟨r, hr, hbegun⟩ := h
      exact ⟨r, List.mem_append_left _ hr, hbegun⟩

theorem begun_step (hkeyed : Keyed IntegrationAction.id st.actions) {op : Op} (htimely : Timely st op) {id : Uuid}
    (h : Begun st id) : Begun (step st op) id := by
  cases op with
  | request => exact begun_request h
  | decide => exact begun_decide hkeyed h
  | claim => exact begun_claim htimely h
  | complete => exact begun_complete h
  | fail => exact begun_fail hkeyed h

/-- What a claim hands out is an approved action with the risk and the id of a row, which then runs. -/
theorem claim_ok {env : Env} {workerId : String} {leaseSeconds : ℤ} {row : IntegrationAction}
    (h : (claimIntegrationAction env workerId leaseSeconds st).1 = .ok (some row)) :
    (∃ r ∈ (giveBack env.now st).actions, r.id = row.id ∧ r.risk = row.risk ∧ r.status = .approved) ∧
      ∃ r ∈ (claimIntegrationAction env workerId leaseSeconds st).2.actions,
        r.id = row.id ∧ r.risk = row.risk ∧ r.status = .running := by
  unfold claimIntegrationAction at h ⊢
  rcases transact_cases (fun st => _) st with ⟨b, st', hbody, -, heq⟩ | ⟨e, heq⟩
  · rw [heq] at h ⊢
    obtain rfl := Except.ok.inj h
    simp only at hbody
    split at hbody
    · cases hbody
    · next r hfirst =>
      cases hbody
      obtain ⟨hr, hready⟩ := List.mem_filter.mp (mem_of_firstBy hfirst)
      refine ⟨⟨r, hr, rfl, rfl, (of_decide_eq_true hready).1⟩, _, mem_updateWhere.mpr ⟨r, hr, if_pos rfl⟩, rfl, rfl, rfl⟩
  · rw [heq] at h
    cases h

theorem handedOut_new (hkeyed : Keyed IntegrationAction.id st.actions) {op : Op} (htimely : Timely st op) {id : Uuid}
    (h : handedOut st op = some id) : ¬ Begun st id ∧ Begun (step st op) id := by
  cases op with
  | request | decide | complete | fail => cases h
  | claim env workerId leaseSeconds =>
    simp only [handedOut] at h
    split at h
    · next row hrow =>
      split_ifs at h with hexternal
      obtain rfl := Option.some.inj h
      obtain ⟨⟨r, hr, hid, hrisk, hstatus⟩, r', hr', hid', hrisk', hstatus'⟩ := claim_ok hrow
      refine ⟨fun hbegun => ?_, r', hr', hid', hrisk'.trans hexternal, Or.inl hstatus'⟩
      -- a row that has begun is not given back, and has the id of the approved one
      obtain ⟨s, hs, hsid, -, hstarted⟩ := begun_giveBack htimely hbegun
      have hkeyed' : Keyed IntegrationAction.id (giveBack env.now st).actions := keyed_upd (fun _ => rfl) hkeyed
      rw [hkeyed'.eq_of_key hs hr (hsid.trans hid.symm), Started, hstatus] at hstarted
      simp at hstarted
    · cases h

/-- **At most once.** In every run in which no claim finds an external action running with an expired lease, no
external action is handed out twice. -/
theorem handedOut_once (st : StoreDb) (hst : st.actions = []) (ops : List Op) (htimely : Along step Timely st ops) :
    (outputs step handedOut st ops).Nodup := by
  have hkeyed : Keyed IntegrationAction.id st.actions := by
    rw [hst]
    exact List.nodup_nil
  have hnodup := outputs_nodup_along (I := fun st : StoreDb => Keyed IntegrationAction.id st.actions) (D := Begun)
    (fun _ op h _ => keyed_step h op) (fun _ _ _ h ht => handedOut_new h ht) (fun _ _ _ h ht => begun_step h ht) hkeyed
    htimely
  exact hnodup.1

/-! ### A worker that is slow -/

def mailbox : StoreDb :=
  { connections := [⟨0, "a", "gmail", "", "approve", [], "healthy", 0, 0⟩] }

/-- A mail is requested, approved and claimed; after `n` seconds the next claim, and then the worker completes. -/
def slow (n : ℤ) : List Op :=
  [.request (envAt 0) "a" "gmail" "gmail.send" "" "k" "{}", .decide "a" 0 true "" none none,
    .claim (envAt 1) "w" 60, .claim (envAt n) "w" 60, .complete 0 "w" none none]

instance (st : StoreDb) : DecidablePred (Timely st)
  | .claim env _ _ => inferInstanceAs (Decidable (∀ r ∈ st.actions, Lapsed env.now r → r.risk = .read))
  | .request .. | .decide .. | .complete .. | .fail .. => .isTrue trivial

/-- Within its lease the mail is sent once. -/
theorem handedOut_once_in_time : (outputs step handedOut mailbox (slow 30)).Nodup :=
  handedOut_once mailbox rfl (slow 30) (by decide)

/-- After its lease the mail is handed out once more. -/
theorem handedOut_again : outputs step handedOut mailbox (slow 62) = [0, 0] := by decide

end Smara.Store.Replays
