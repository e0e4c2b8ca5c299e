import Smara.Harness.Frames

/-! # A mutating call is executed at most once

A row of `calls` is `pending`, then `admitted` before its executor is invoked, then `completed`. A crash
leaves it where it stands; a mutating row that is found `admitted` is uncertain.

* `Once`: what holds between two statements of any operation, after any crashes and cancellations.
* `Stuck`: a row that is completed or uncertain, with the number of its executions so far.
* `holds_program`: every operation keeps both; `settled_arrived`, `stuck_arrived`: so does every run. -/

namespace Smara.Harness.Admission

open Lib.Table Lib.Scripts
open Goals.Schema (Json)
open Harness.Schema Harness.Engine Harness.Frames

variable {host : Host} {j j' : Journal} {tr tr' : List (Exchange Answer)} {stuck : Option (CallRow × ℕ)}

/-! ### Executions -/

def executed (e : Exchange Answer) : Option String :=
  match e.asked with
  | .execute call _ => some call.callId
  | _ => none

def executions (tr : List (Exchange Answer)) : List String := tr.filterMap executed

theorem executions_append (tr tr' : List (Exchange Answer)) :
    executions (tr ++ tr') = executions tr ++ executions tr' := List.filterMap_append

theorem executions_execute (tr : List (Exchange Answer)) (call : ToolCall) (given : Bool)
    (o : Option (Answer (.execute call given))) :
    executions (tr ++ [⟨.execute call given, o⟩]) = executions tr ++ [call.callId] :=
  executions_append tr _

theorem executions_of_extends (h : Extends Talk tr tr') : executions tr' = executions tr := by
  obtain ⟨es, rfl, hes⟩ := h
  have hnone : executions es = [] := by
    refine List.filterMap_eq_nil_iff.mpr fun e he => ?_
    have htalk := hes e he
    obtain ⟨i, a⟩ := e
    cases i with
    | execute => exact absurd htalk not_false
    | _ => rfl
  rw [executions_append, hnone, List.append_nil]

/-! ### The invariant -/

def marks (j : Journal) : List (String × Bool) := j.calls.map fun r => (r.callId, r.mutating)

/-- **A mutating call is executed at most once, and not while it is pending.** -/
structure Once (j : Journal) (tr : List (Exchange Answer)) : Prop where
  keyed : Keyed CallRow.callId j.calls
  known : ∀ id ∈ executions tr, ∃ r ∈ j.calls, r.callId = id ∧ (r.mutating → r.state ≠ .pending)
  once : ∀ r ∈ j.calls, r.mutating → (executions tr).count r.callId ≤ 1

def Closed (r : CallRow) : Prop := r.state = .completed ∨ (r.state = .admitted ∧ r.mutating)

/-- The row is closed, and its executor has been invoked `n` times. -/
structure Stuck (row : CallRow) (n : ℕ) (j : Journal) (tr : List (Exchange Answer)) : Prop where
  here : row ∈ j.calls
  closed : Closed row
  count : (executions tr).count row.callId = n

/-- What every statement keeps, for a row that is closed. -/
structure Kept (stuck : Option (CallRow × ℕ)) (j : Journal) (tr : List (Exchange Answer)) : Prop where
  once : Once j tr
  stuck : ∀ p ∈ stuck, Stuck p.1 p.2 j tr

/-- A mutating call has not been executed yet. -/
def Free (id : String) (j : Journal) (tr : List (Exchange Answer)) : Prop :=
  (id, true) ∈ marks j → id ∉ executions tr

theorem mem_marks {id : String} {m : Bool} :
    (id, m) ∈ marks j ↔ ∃ r ∈ j.calls, r.callId = id ∧ r.mutating = m := by
  simp [marks]

theorem kept_congr (hcalls : j'.calls = j.calls) (htr : executions tr' = executions tr)
    (h : Kept stuck j tr) : Kept stuck j' tr' := by
  obtain ⟨⟨hkeyed, hknown, honce⟩, hstuck₀⟩ := h
  refine ⟨⟨hcalls ▸ hkeyed, ?_, ?_⟩, fun p hp => ?_⟩
  · rw [htr, hcalls]
    exact hknown
  · rw [htr, hcalls]
    exact honce
  · have hp' := hstuck₀ p hp
    exact ⟨hcalls.symm ▸ hp'.here, hp'.closed, (congrArg _ htr).trans hp'.count⟩

theorem kept_updCall (h : Kept stuck j tr) {id : String} {f : CallRow → CallRow}
    (hid : ∀ r, (f r).callId = r.callId) (hmutating : ∀ r, (f r).mutating = r.mutating)
    (hstate : ∀ r ∈ j.calls, r.callId = id → r.mutating → (f r).state ≠ .pending)
    (hstuck : ∀ p ∈ stuck, p.1.callId ≠ id) : Kept stuck (j.updCall id f) tr := by
  obtain ⟨⟨hkeyed, hknown, honce⟩, hstuck₀⟩ := h
  refine ⟨⟨(keyed_updateWhere fun r _ => hid r).mpr hkeyed, fun id' hid' => ?_, fun r' hr' hwrites => ?_⟩,
    fun p hp => ⟨?_, (hstuck₀ p hp).closed, (hstuck₀ p hp).count⟩⟩
  · obtain ⟨r, hr, hrid, hrstate⟩ := hknown id' hid'
    by_cases hrow : r.callId = id
    · refine ⟨f r, mem_updateWhere.mpr ⟨r, hr, if_pos hrow⟩, (hid r).trans hrid, fun hwrites => ?_⟩
      exact hstate r hr hrow (hmutating r ▸ hwrites)
    · exact ⟨r, mem_updateWhere.mpr ⟨r, hr, if_neg hrow⟩, hrid, hrstate⟩
  · obtain ⟨r, hr, rfl⟩ := mem_updateWhere.mp hr'
    split_ifs at hwrites ⊢ with hrow
    · rw [hid]
      exact honce r hr (hmutating r ▸ hwrites)
    · exact honce r hr hwrites
  · exact mem_updateWhere.mpr ⟨p.1, (hstuck₀ p hp).here, if_neg (hstuck p hp)⟩

theorem marks_updCall {id : String} {f : CallRow → CallRow} (hid : ∀ r, (f r).callId = r.callId)
    (hmutating : ∀ r, (f r).mutating = r.mutating) : marks (j.updCall id f) = marks j :=
  map_updateWhere fun r _ => by rw [hid, hmutating]

theorem kept_insertCall (h : Kept stuck j tr) {r : CallRow} (hok : Journal.insertCall r j = .ok j') :
    Kept stuck j' tr := by
  obtain ⟨⟨hkeyed, hknown, honce⟩, hstuck₀⟩ := h
  unfold Journal.insertCall at hok
  split_ifs at hok with hdup
  cases hok
  have hfresh : ∀ r' ∈ j.calls, r'.callId ≠ r.callId := fun r' hr' hid => hdup ⟨r', hr', Or.inl hid⟩
  refine ⟨⟨keyed_append.mpr ⟨hkeyed, List.nodup_singleton _, ?_⟩, fun id hid => ?_,
    fun r' hr' hwrites => ?_⟩, fun p hp => ⟨?_, (hstuck₀ p hp).closed, (hstuck₀ p hp).count⟩⟩
  · intro r' hr' r'' hr''
    rw [List.mem_singleton.mp hr'']
    exact hfresh r' hr'
  · obtain ⟨r', hr', hrid, hstate⟩ := hknown id hid
    exact ⟨r', List.mem_append_left _ hr', hrid, hstate⟩
  · rcases List.mem_append.mp hr' with hr' | hr'
    · exact honce r' hr' hwrites
    · -- an execution would have left a row
      have hnone : r.callId ∉ executions tr := by
        intro hmem
        obtain ⟨r₀, hr₀, hid, -⟩ := hknown _ hmem
        exact hfresh r₀ hr₀ hid
      rw [List.mem_singleton.mp hr', List.count_eq_zero_of_not_mem hnone]
      omega
  · exact List.mem_append_left _ (hstuck₀ p hp).here

theorem kept_execute (h : Kept stuck j tr) {call : ToolCall} {given : Bool}
    (o : Option (Answer (.execute call given))) (hfree : Free call.callId j tr)
    (hadmitted : ∃ r ∈ j.calls, r.callId = call.callId ∧ r.state = .admitted)
    (hstuck : ∀ p ∈ stuck, p.1.callId ≠ call.callId) :
    Kept stuck j (tr ++ [⟨.execute call given, o⟩]) := by
  obtain ⟨⟨hkeyed, hknown, honce⟩, hstuck₀⟩ := h
  refine ⟨⟨hkeyed, fun id hid => ?_, fun r hr hwrites => ?_⟩,
    fun p hp => ⟨(hstuck₀ p hp).here, (hstuck₀ p hp).closed, ?_⟩⟩
  · rw [executions_execute] at hid
    rcases List.mem_append.mp hid with hid | hid
    · exact hknown id hid
    · obtain ⟨r, hr, hrid, hstate⟩ := hadmitted
      rw [List.mem_singleton.mp hid]
      refine ⟨r, hr, hrid, fun _ => ?_⟩
      rw [hstate]
      decide
  · rw [executions_execute, List.count_append]
    by_cases hid : r.callId = call.callId
    · have hnone : r.callId ∉ executions tr := hid ▸ hfree (mem_marks.mpr ⟨r, hr, hid, hwrites⟩)
      rw [List.count_eq_zero_of_not_mem hnone, Nat.zero_add]
      exact List.count_le_length
    · rw [List.count_singleton, if_neg fun h => hid (beq_iff_eq.mp h).symm]
      exact honce r hr hwrites
  · rw [executions_execute, List.count_append, List.count_singleton,
      if_neg fun h => hstuck p hp (beq_iff_eq.mp h).symm]
    exact (hstuck₀ p hp).count

theorem free_of_row (h : Once j tr) {r : CallRow} (hr : r ∈ j.calls)
    (hrow : r.mutating → r.state = .pending) : Free r.callId j tr := by
  intro hmark hmem
  obtain ⟨r', hr', hid, hwrites⟩ := mem_marks.mp hmark
  obtain rfl := h.keyed.eq_of_key hr' hr hid
  obtain ⟨r₀, hr₀, hid₀, hstate⟩ := h.known _ hmem
  obtain rfl := h.keyed.eq_of_key hr₀ hr' hid₀
  exact hstate hwrites (hrow hwrites)

/-! ### What a script keeps -/

def SameCalls (j j' : Journal) : Prop := j'.calls = j.calls

theorem marks_congr (h : SameCalls j j') : marks j' = marks j := by
  unfold marks
  rw [show j'.calls = j.calls from h]

/-- The contract of every operation. -/
def contract (stuck : Option (CallRow × ℕ)) : Contract Journal Answer where
  rely := Others
  admits _ _ _ := True
  inv := Kept stuck
  refl := others_refl
  trans := others_trans
  stable h hk := kept_congr h.calls rfl hk

variable {α β : Type} {R : Except Err β → Journal → List (Exchange Answer) → Prop}

theorem holds_calls {p : Engine α} (hp : Quiet SameCalls Talk p) (hk : Kept stuck j tr) :
    Holds (contract stuck) (fun _ j' tr' => SameCalls j j' ∧ executions tr' = executions tr) p j tr := by
  have h : Holds (contract stuck) (fun _ j' tr' => SameCalls j j' ∧ Extends Talk tr tr') p j tr :=
    holds_of_quiet hp (fun _ => rfl) (fun h h' => h'.trans h) (fun h => Others.calls h)
      fun hcalls htr => kept_congr hcalls (executions_of_extends htr) hk
  exact holds_mono h fun _ _ _ ⟨hcalls, htr⟩ => ⟨hcalls, executions_of_extends htr⟩

theorem calls_of_unmoved {p : Engine α} (h : Quiet Unmoved Talk p) : Quiet SameCalls Talk p :=
  quiet_mono h fun _ _ h => h.calls

/-- How a script leaves the calls that are not its own: `ids` have been executed. -/
structure Leaves (stuck : Option (CallRow × ℕ)) (j : Journal) (tr : List (Exchange Answer))
    (ids : List String) (j' : Journal) (tr' : List (Exchange Answer)) : Prop where
  kept : Kept stuck j' tr'
  rows : marks j' = marks j
  ran : executions tr' = executions tr ++ ids

theorem leaves_refl (hk : Kept stuck j tr) : Leaves stuck j tr [] j tr :=
  ⟨hk, rfl, (List.append_nil _).symm⟩

theorem Leaves.calls {ids : List String} {j'' : Journal} {tr'' : List (Exchange Answer)}
    (h : Leaves stuck j tr ids j' tr') (hcalls : SameCalls j' j'')
    (htr : executions tr'' = executions tr') : Leaves stuck j tr ids j'' tr'' :=
  ⟨kept_congr hcalls htr h.kept, (marks_congr hcalls).trans h.rows, htr.trans h.ran⟩

theorem holds_quiet {p : Engine α} {next : α → Engine β} {ids : List String} (hp : Quiet SameCalls Talk p)
    (h : Leaves stuck j tr ids j' tr')
    (hnext : ∀ a j'' tr'', SameCalls j' j'' → Leaves stuck j tr ids j'' tr'' →
      Holds (contract stuck) R (next a) j'' tr'')
    (hraise : ∀ e j'' tr'', Leaves stuck j tr ids j'' tr'' → R (.error e) j'' tr'') :
    Holds (contract stuck) R (p >>= next) j' tr' :=
  holds_seq (holds_calls hp h.kept) (fun a _ _ hq => hnext a _ _ hq.1 (h.calls hq.1 hq.2))
    fun e _ _ hq => hraise e _ _ (h.calls hq.1 hq.2)

theorem holds_updCall {k : Unit → Engine β} {ids : List String} {id : String} {f : CallRow → CallRow}
    (h : Leaves stuck j tr ids j' tr') (hid : ∀ r, (f r).callId = r.callId)
    (hmutating : ∀ r, (f r).mutating = r.mutating)
    (hstate : ∀ r ∈ j'.calls, r.callId = id → r.mutating → (f r).state ≠ .pending)
    (hstuck : ∀ p ∈ stuck, p.1.callId ≠ id)
    (hnext : ∀ j'', SameCalls j' j'' → Leaves stuck j tr ids (j''.updCall id f) tr' →
      Holds (contract stuck) R (k ()) (j''.updCall id f) tr') :
    Holds (contract stuck) R (put (Journal.updCall id f) >>= k) j' tr' := by
  refine holds_put h.kept fun j'' hothers => hnext j'' hothers.calls ?_
  have hl := h.calls hothers.calls rfl
  refine ⟨kept_updCall hl.kept hid hmutating ?_ hstuck, (marks_updCall hid hmutating).trans hl.rows, hl.ran⟩
  rw [hothers.calls]
  exact hstate

def Admitted (id : String) (j : Journal) : Prop := ∃ r ∈ j.calls, r.callId = id ∧ r.state = .admitted

theorem admitted_congr {id : String} (h : SameCalls j j') (hadmitted : Admitted id j) : Admitted id j' := by
  unfold Admitted
  rw [show j'.calls = j.calls from h]
  exact hadmitted

theorem holds_admitCall {usage : Usage} {id name : String} {arguments : Dict} (hk : Kept stuck j tr)
    (hrow : ∃ r ∈ j.calls, r.callId = id) (hstuck : ∀ p ∈ stuck, p.1.callId ≠ id) :
    Holds (contract stuck) (fun r j' tr' => Leaves stuck j tr [] j' tr' ∧ (r.isOk → Admitted id j'))
      (admitCall host usage id name arguments) j tr := by
  have hset : Quiet SameCalls Talk
      (Engine.set fun s => { s with usage := { usage with toolCalls := usage.toolCalls + 1 } }) :=
    quiet_set fun _ => rfl
  refine holds_quiet hset (leaves_refl hk) (fun _ j₁ tr₁ hcalls₁ hl₁ => ?_) fun _ _ _ hl => ⟨hl, nofun⟩
  refine holds_quiet quiet_currentWorkspaceRevision hl₁ (fun before j₂ tr₂ hcalls₂ hl₂ => ?_)
    fun _ _ _ hl => ⟨hl, nofun⟩
  refine holds_updCall hl₂ (fun _ => rfl) (fun _ => rfl) (fun _ _ _ _ => nofun) hstuck
    fun j₃ hcalls₃ hl₃ => ?_
  have hadmitted : Admitted id (j₃.updCall id fun r =>
      { r with state := .admitted, beforeRevision := some before }) := by
    obtain ⟨r, hr, hid⟩ := hrow
    have hr₃ : r ∈ j₃.calls := by
      rw [show j₃.calls = _ from hcalls₃, show j₂.calls = _ from hcalls₂, show j₁.calls = _ from hcalls₁]
      exact hr
    exact ⟨_, mem_updateWhere.mpr ⟨r, hr₃, rfl⟩, by rw [if_pos hid]; exact ⟨hid, rfl⟩⟩
  refine holds_quiet (calls_of_unmoved calm_event) hl₃ (fun _ j₄ tr₄ hcalls₄ hl₄ => ?_)
    fun _ _ _ hl => ⟨hl, nofun⟩
  exact holds_pure hl₄.kept fun j₅ hothers =>
    ⟨hl₄.calls hothers.calls rfl, fun _ =>
      admitted_congr hothers.calls (admitted_congr hcalls₄ hadmitted)⟩

theorem holds_execute {call : ToolCall} {given : Bool} {next : Outcome → Engine β}
    (h : Leaves stuck j tr [] j' tr') (hfree : Free call.callId j tr)
    (hadmitted : Admitted call.callId j') (hstuck : ∀ p ∈ stuck, p.1.callId ≠ call.callId)
    (hnext : ∀ o j'' tr'', Leaves stuck j tr [call.callId] j'' tr'' →
      Holds (contract stuck) R (next o) j'' tr'') :
    Holds (contract stuck) R (request (Ask.execute call given) >>= next) j' tr' := by
  have hrun : ∀ j'' (o : Option (Answer (.execute call given))), Others j' j'' →
      Leaves stuck j tr [call.callId] j'' (tr' ++ [⟨.execute call given, o⟩]) := by
    intro j'' o hothers
    have hl := h.calls hothers.calls rfl
    refine ⟨kept_execute hl.kept o ?_ (admitted_congr hothers.calls hadmitted) hstuck, hl.rows, ?_⟩
    · intro hmark
      rw [hl.rows] at hmark
      rw [hl.ran, List.append_nil]
      exact hfree hmark
    · rw [executions_execute, hl.ran, List.append_nil]
  exact holds_request h.kept (fun j'' hothers => (hrun j'' none hothers).kept)
    fun j'' hothers o _ => hnext o j'' _ (hrun j'' (some o) hothers)

theorem holds_record {ids : List String} {id : String} {result : ToolResult}
    (h : Leaves stuck j tr ids j' tr') (hstuck : ∀ p ∈ stuck, p.1.callId ≠ id) :
    Holds (contract stuck) (fun _ => Leaves stuck j tr ids) (record id result) j' tr' := by
  have hafter : Quiet SameCalls Talk (revisionAfter result) := by
    unfold revisionAfter
    split
    · exact quiet_currentWorkspaceRevision
    · exact quiet_currentWorkspaceRevision
    · exact quiet_pure _
  have hevidence : ∀ after aid, Quiet SameCalls Talk (recordEvidence id result after aid) := by
    intro after aid
    exact quiet_ite (quiet_bind quiet_uuid fun _ => quiet_bind quiet_now fun _ =>
      quiet_bind (quiet_put fun _ => rfl) fun _ => calls_of_unmoved calm_event) (quiet_pure _)
  refine holds_quiet quiet_putJson h (fun aid j₁ tr₁ _ hl₁ => ?_) fun _ _ _ hl => hl
  refine holds_quiet hafter hl₁ (fun after j₂ tr₂ _ hl₂ => ?_) fun _ _ _ hl => hl
  refine holds_updCall hl₂ (fun _ => rfl) (fun _ => rfl) (fun _ _ _ _ => nofun) hstuck
    fun j₃ _ hl₃ => ?_
  refine holds_quiet (calls_of_unmoved calm_event) hl₃ (fun _ j₄ tr₄ _ hl₄ => ?_) fun _ _ _ hl => hl
  refine holds_quiet (hevidence after aid) hl₄ (fun _ j₅ tr₅ _ hl₅ => ?_) fun _ _ _ hl => hl
  exact holds_pure hl₅.kept fun _ hothers => hl₅.calls hothers.calls rfl

/-! ### The two loops -/

theorem not_stuck (hk : Kept stuck j tr) {r : CallRow} (hr : r ∈ j.calls) (hstate : ¬ Closed r) :
    ∀ p ∈ stuck, p.1.callId ≠ r.callId := by
  intro p hp hid
  obtain rfl := hk.once.keyed.eq_of_key (hk.stuck p hp).here hr hid
  exact hstate (hk.stuck p hp).closed

theorem quiet_outcomeOf {keeps : Journal → Journal → Prop} {id : String} (o : Outcome) :
    Quiet keeps Talk (outcomeOf id o) := by
  cases o with
  | returned r => exact quiet_pure _
  | other => exact quiet_pure _
  | raised kind message => exact quiet_raise _
  | interrupted => exact quiet_raise _

theorem quiet_remember {call : ToolCall} {fp : String} {cache : List (String × Dict)} {r : ToolResult}
    {receipt : Dict} : Quiet SameCalls Talk (remember call fp cache r receipt) :=
  quiet_ite (quiet_set fun _ => rfl) (quiet_pure _)

theorem holds_executeFresh {budget : Budget} {call : ToolCall} {fp : String}
    {cache : List (String × Dict)} (hk : Kept stuck j tr) (hrow : ∃ r ∈ j.calls, r.callId = call.callId)
    (hfree : Free call.callId j tr) (hstuck : ∀ p ∈ stuck, p.1.callId ≠ call.callId) :
    Holds (contract stuck) (fun _ => Kept stuck) (executeFresh host budget call fp cache) j tr := by
  refine holds_quiet (quiet_get _) (leaves_refl hk) (fun usage j₁ tr₁ hcalls₁ hl₁ => ?_)
    fun _ _ _ hl => hl.kept
  refine holds_quiet quiet_require hl₁ (fun _ j₂ tr₂ hcalls₂ hl₂ => ?_) fun _ _ _ hl => hl.kept
  have hcalls : j₂.calls = j.calls := hcalls₂.trans hcalls₁
  have hran : executions tr₂ = executions tr := hl₂.ran.trans (List.append_nil _)
  refine holds_seq (holds_admitCall hl₂.kept (hcalls.symm ▸ hrow) hstuck) (fun before j₃ tr₃ hadmits => ?_)
    fun _ _ _ hadmits => hadmits.1.kept
  have hfree₂ : Free call.callId j₂ tr₂ := by
    unfold Free marks
    rw [hcalls, hran]
    exact hfree
  refine holds_execute hadmits.1 hfree₂ (hadmits.2 rfl) hstuck fun o j₄ tr₄ hl₄ => ?_
  refine holds_quiet (quiet_outcomeOf o) hl₄ (fun result j₅ tr₅ _ hl₅ => ?_) fun _ _ _ hl => hl.kept
  refine holds_seq (holds_record hl₅ hstuck) (fun receipt j₆ tr₆ hl₆ => ?_) fun _ _ _ hl => hl.kept
  refine holds_quiet quiet_remember hl₆ (fun _ j₇ tr₇ _ hl₇ => ?_) fun _ _ _ hl => hl.kept
  refine holds_quiet (quiet_progress (fun _ _ => rfl) fun _ _ => rfl) hl₇ (fun _ j₈ tr₈ _ hl₈ => ?_)
    fun _ _ _ hl => hl.kept
  exact holds_pure hl₈.kept fun _ hothers => (hl₈.calls hothers.calls rfl).kept

theorem quiet_replay {keeps : Journal → Journal → Prop} (result : Option Dict) :
    Quiet keeps Talk (replay result) := by
  unfold replay
  split
  · exact quiet_raise _
  · split
    · exact quiet_raise _
    · exact quiet_pure _

theorem mem_of_call {id : String} {r : CallRow} (h : j.call id = some r) : r ∈ j.calls ∧ r.callId = id :=
  ⟨mem_of_lookup h, key_of_lookup h⟩

theorem holds_insertCall {next : Unit → Engine β} {row : CallRow} (hk : Kept stuck j tr)
    (hnext : ∀ j' j'', SameCalls j j' → Journal.insertCall row j' = .ok j'' → Kept stuck j'' tr →
      Holds (contract stuck) R (next ()) j'' tr)
    (hraise : ∀ j' e, Kept stuck j' tr → R (.error e) j' tr) :
    Holds (contract stuck) R (attempt (Journal.insertCall row) >>= next) j tr := by
  refine holds_attempt hk (fun j' hothers j'' hok => ?_) fun j' hothers e => ?_
  · exact hnext j' j'' hothers.calls hok (kept_insertCall (kept_congr hothers.calls rfl hk) hok)
  · exact hraise j' e (kept_congr hothers.calls rfl hk)

theorem insertCall_calls {row : CallRow} (hok : Journal.insertCall row j = .ok j') :
    j'.calls = j.calls ++ [row] ∧ ∀ r ∈ j.calls, r.callId ≠ row.callId := by
  unfold Journal.insertCall at hok
  split_ifs at hok with hdup
  cases hok
  exact ⟨rfl, fun r hr hid => hdup ⟨r, hr, Or.inl hid⟩⟩

theorem holds_executeRow {budget : Budget} {call : ToolCall} {fp : String} {cache : List (String × Dict)}
    (hk : Kept stuck j tr) :
    Holds (contract stuck) (fun _ => Kept stuck) (executeRow host budget call fp cache) j tr := by
  refine holds_get hk fun j₁ hothers₁ => ?_
  have hk₁ : Kept stuck j₁ tr := kept_congr hothers₁.calls rfl hk
  cases hcall : j₁.call call.callId with
  | some row =>
    obtain ⟨hrow, hid⟩ := mem_of_call hcall
    dsimp only
    split_ifs with hcompleted huncertain
    · exact holds_mono (holds_calls (quiet_replay _) hk₁)
        fun _ _ _ ⟨hcalls, htr⟩ => kept_congr hcalls htr hk₁
    · exact holds_raise hk₁ fun _ hothers => kept_congr hothers.calls rfl hk₁
    · refine holds_executeFresh hk₁ ⟨row, hrow, hid⟩ ?_ ?_
      · rw [← hid]
        refine free_of_row hk₁.once hrow fun hwrites => ?_
        cases hstate : row.state with
        | pending => rfl
        | admitted => exact absurd ⟨hstate, hwrites⟩ huncertain
        | completed => exact absurd hstate hcompleted
      · rw [← hid]
        exact not_stuck hk₁ hrow fun h => h.elim hcompleted huncertain
  | none =>
    refine holds_quiet (quiet_get _) (leaves_refl hk₁) (fun position j₂ tr₂ hcalls₂ hl₂ => ?_)
      fun _ _ _ hl => hl.kept
    refine holds_insertCall hl₂.kept (fun j₃ j₄ hcalls₃ hok hk₄ => ?_) fun _ _ hk => hk
    obtain ⟨hcalls₄, hfresh⟩ := insertCall_calls hok
    have hnew : newRow call position ∈ j₄.calls := by
      rw [hcalls₄]
      exact List.mem_append_right _ (List.mem_singleton.mpr rfl)
    exact holds_executeFresh hk₄ ⟨_, hnew, rfl⟩ (free_of_row hk₄.once hnew fun _ => rfl)
      (not_stuck hk₄ hnew fun h => h.elim nofun fun h => nomatch h.1)

theorem quiet_reused {keeps : Journal → Journal → Prop} (hev : ∀ j es, keeps j { j with events := es })
    {call : ToolCall} {fp : String} {count : ℕ} {receipt : Dict} :
    Quiet keeps Talk (reused call fp count receipt) :=
  quiet_bind (quiet_event hev) fun _ => quiet_ite (quiet_event hev) (quiet_pure _)

theorem quiet_reusedAnswer {keeps : Journal → Journal → Prop} {count : ℕ} {cached : Dict} :
    Quiet keeps Talk (reusedAnswer count cached) := by
  unfold reusedAnswer
  split
  · exact quiet_raise _
  · exact quiet_pure _

theorem holds_reuse {call : ToolCall} {fp revision : String} {receipt : Dict} (hk : Kept stuck j tr) :
    Holds (contract stuck) (fun _ j' tr' => Kept stuck j' tr' ∧ executions tr' = executions tr)
      (reuse host call fp revision receipt) j tr := by
  have hstore : Holds (contract stuck)
      (fun _ j' tr' => Kept stuck j' tr' ∧ executions tr' = executions tr)
      (storeReused host call revision (withText "call_id" call.callId (withoutArtifact receipt) ++
        [("artifact_id", (field "artifact_id" receipt).getD .null), ("reused", .bool true)])) j tr := by
    refine holds_get hk fun j₁ hothers₁ => ?_
    have hk₁ : Kept stuck j₁ tr := kept_congr hothers₁.calls rfl hk
    cases j₁.call call.callId with
    | some row => exact holds_pure hk₁ fun _ hothers => ⟨kept_congr hothers.calls rfl hk₁, rfl⟩
    | none =>
      refine holds_quiet (quiet_get _) (leaves_refl hk₁) (fun position j₂ tr₂ _ hl₂ => ?_)
        fun _ _ _ hl => ⟨hl.kept, hl.ran.trans (List.append_nil _)⟩
      have htr₂ : executions tr₂ = executions tr := hl₂.ran.trans (List.append_nil _)
      refine ⟨hl₂.kept, fun j₃ hothers₃ => ⟨fun j₄ hok => ?_, fun e _ j₄ hothers₄ => ?_⟩⟩
      · have hk₄ := kept_insertCall (kept_congr hothers₃.calls rfl hl₂.kept) hok
        exact ⟨hk₄, fun _ hothers => ⟨kept_congr hothers.calls rfl hk₄, htr₂⟩⟩
      · exact ⟨kept_congr (others_trans hothers₃ hothers₄).calls rfl hl₂.kept, htr₂⟩
  refine holds_seq hstore (fun _ j₁ tr₁ hq => ?_) fun _ _ _ hq => hq
  have hrest : Quiet SameCalls Talk (do
      let counts ← get fun j => j.state.receiptReuseCounts
      let count := ((lookup Prod.fst fp counts).map Prod.snd).getD 0 + 1
      set fun s => { s with
        receiptReuseCounts := upsert Prod.fst (fp, count) (fun _ => (fp, count)) counts }
      reused call fp count receipt
      reusedAnswer count (withText "call_id" call.callId (withoutArtifact receipt))) :=
    quiet_bind (quiet_get _) fun _ => quiet_bind (quiet_set fun _ => rfl) fun _ =>
      quiet_bind (quiet_reused fun _ _ => rfl) fun _ => quiet_reusedAnswer
  exact holds_mono (holds_calls hrest hq.1)
    fun _ _ _ ⟨hcalls, htr⟩ => ⟨kept_congr hcalls htr hq.1, htr.trans hq.2⟩

theorem quiet_requireRevision {call : ToolCall} : Quiet Unmoved Talk (requireRevision call) :=
  quiet_ite (quiet_pure _) (quiet_set fun _ => ⟨rfl, rfl, fun _ => rfl⟩)

theorem holds_executeIncremental {call : ToolCall} (hk : Kept stuck j tr) :
    Holds (contract stuck) (fun _ => Kept stuck) (executeIncremental host call) j tr := by
  refine holds_quiet (calls_of_unmoved quiet_requireRevision) (leaves_refl hk)
    (fun _ j₁ tr₁ _ hl₁ => ?_) fun _ _ _ hl => hl.kept
  refine holds_quiet quiet_admitted hl₁ (fun _ j₂ tr₂ _ hl₂ => ?_) fun _ _ _ hl => hl.kept
  refine holds_quiet (quiet_get _) hl₂ (fun budget j₃ tr₃ _ hl₃ => ?_) fun _ _ _ hl => hl.kept
  refine holds_quiet quiet_currentWorkspaceRevision hl₃ (fun revision j₄ tr₄ _ hl₄ => ?_)
    fun _ _ _ hl => hl.kept
  refine holds_quiet (quiet_get _) hl₄ (fun cache j₅ tr₅ _ hl₅ => ?_) fun _ _ _ hl => hl.kept
  split
  · exact holds_mono (holds_reuse hl₅.kept) fun _ _ _ hq => hq.1
  · exact holds_executeRow hl₅.kept

/-! ### `continue_run` -/

theorem quiet_plannedOutcome {id before : String} {given : Bool} (o : Outcome) :
    Quiet SameCalls Talk (plannedOutcome id before given o) := by
  have hfailed : ∀ kind message, Quiet SameCalls Talk (plannedOutcome.failed id before kind message) :=
    fun _ _ => quiet_bind quiet_currentWorkspaceRevision fun _ => quiet_pure _
  cases o with
  | returned r => exact quiet_ite (quiet_pure _) (quiet_ite (quiet_pure _) (hfailed _ _))
  | other => exact hfailed _ _
  | raised kind message => exact hfailed _ _
  | interrupted => exact quiet_bind (calls_of_unmoved calm_event) fun _ => quiet_raise _

theorem quiet_ending {status : RunStatus} {receipts : List Dict} {unresolved : String} :
    Quiet Unmoved Talk (ending status receipts unresolved) :=
  quiet_bind calm_finish fun _ => quiet_pure _

/-- What a turn of the loop leaves: at most its own call has been executed. -/
def Turned (stuck : Option (CallRow × ℕ)) (j : Journal) (tr : List (Exchange Answer)) (id : String)
    (j' : Journal) (tr' : List (Exchange Answer)) : Prop :=
  Leaves stuck j tr [] j' tr' ∨ Leaves stuck j tr [id] j' tr'

theorem Turned.kept {id : String} (h : Turned stuck j tr id j' tr') : Kept stuck j' tr' :=
  h.elim Leaves.kept Leaves.kept

theorem turned_of_quiet {p : Engine α} {ids : List String} {id : String} (hp : Quiet Unmoved Talk p)
    (h : Leaves stuck j tr ids j' tr') (hids : ids = [] ∨ ids = [id]) :
    Holds (contract stuck) (fun _ => Turned stuck j tr id) p j' tr' := by
  refine holds_mono (holds_calls (calls_of_unmoved hp) h.kept) fun _ j'' tr'' ⟨hcalls, htr⟩ => ?_
  have hl := h.calls hcalls htr
  rcases hids with rfl | rfl
  · exact Or.inl hl
  · exact Or.inr hl

theorem holds_executePlanned {given : Bool} {usage : Usage} {receipts : List Dict} {row : CallRow}
    (hk : Kept stuck j tr) (hrow : ∃ r ∈ j.calls, r.callId = row.callId) (hfree : Free row.callId j tr)
    (hstuck : ∀ p ∈ stuck, p.1.callId ≠ row.callId) :
    Holds (contract stuck) (fun _ => Turned stuck j tr row.callId)
      (executePlanned host given usage receipts row) j tr := by
  refine holds_seq (holds_admitCall hk hrow hstuck) (fun before j₁ tr₁ hadmits => ?_)
    fun _ _ _ hadmits => Or.inl hadmits.1
  refine holds_execute hadmits.1 hfree (hadmits.2 rfl) hstuck fun o j₂ tr₂ hl₂ => ?_
  refine holds_quiet (quiet_plannedOutcome o) hl₂ (fun result j₃ tr₃ _ hl₃ => ?_)
    fun _ _ _ hl => Or.inr hl
  refine holds_seq (holds_record hl₃ hstuck) (fun receipt j₄ tr₄ hl₄ => ?_) fun _ _ _ hl => Or.inr hl
  exact turned_of_quiet (quiet_ite (quiet_pure _) quiet_ending) hl₄ (Or.inr rfl)

/-- What the snapshot of a row still says: the row is there, and has not been executed since if that
matters. -/
structure Fresh (stuck : Option (CallRow × ℕ)) (j : Journal) (tr : List (Exchange Answer))
    (row : CallRow) : Prop where
  there : (row.callId, row.mutating) ∈ marks j
  free : row.mutating → row.state = .pending → row.callId ∉ executions tr
  closed : ∀ p ∈ stuck, p.1.callId = row.callId → Closed row

theorem fresh_of_turned {row other : CallRow} (h : Fresh stuck j tr row) (hid : row.callId ≠ other.callId)
    (ht : Turned stuck j tr other.callId j' tr') : Fresh stuck j' tr' row := by
  have hrows : marks j' = marks j := ht.elim Leaves.rows Leaves.rows
  refine ⟨hrows ▸ h.there, fun hwrites hpending hmem => ?_, h.closed⟩
  rcases ht with hl | hl
  · rw [hl.ran, List.append_nil] at hmem
    exact h.free hwrites hpending hmem
  · rw [hl.ran] at hmem
    rcases List.mem_append.mp hmem with hmem | hmem
    · exact h.free hwrites hpending hmem
    · exact hid (List.mem_singleton.mp hmem)

theorem fresh_of_mem (hk : Kept stuck j tr) {row : CallRow} (hrow : row ∈ j.calls) :
    Fresh stuck j tr row := by
  refine ⟨mem_marks.mpr ⟨row, hrow, rfl, rfl⟩, fun hwrites hpending => ?_, fun p hp hid => ?_⟩
  · exact free_of_row hk.once hrow (fun _ => hpending) (mem_marks.mpr ⟨row, hrow, rfl, hwrites⟩)
  · obtain rfl := hk.once.keyed.eq_of_key (hk.stuck p hp).here hrow hid
    exact (hk.stuck p hp).closed

theorem holds_continueCall {given : Bool} {budget : Budget} {usage : Usage} {receipts : List Dict}
    {row : CallRow} (hk : Kept stuck j tr) (hfresh : Fresh stuck j tr row) :
    Holds (contract stuck) (fun _ => Turned stuck j tr row.callId)
      (continueCall host given budget usage receipts row) j tr := by
  unfold continueCall
  split_ifs with hcompleted huncertain
  · exact turned_of_quiet (quiet_pure _) (leaves_refl hk) (Or.inl rfl)
  · exact turned_of_quiet quiet_ending (leaves_refl hk) (Or.inl rfl)
  have hstuck : ∀ p ∈ stuck, p.1.callId ≠ row.callId :=
    fun p hp hid => (hfresh.closed p hp hid).elim hcompleted huncertain
  -- a row that is not uncertain may go back, since it does not write
  have hstart : Holds (contract stuck) (fun _ => Leaves stuck j tr []) (readmitRow row) j tr := by
    unfold readmitRow
    split_ifs with hadmitted
    · refine holds_updCall (k := fun _ => pure ()) (leaves_refl hk) (fun _ => rfl) (fun _ => rfl)
        (fun r hr hid hwrites _ => huncertain ⟨hadmitted, ?_⟩) hstuck fun _ _ hl => ?_
      · obtain ⟨r', hr', hid', hwrites'⟩ := mem_marks.mp hfresh.there
        obtain rfl := hk.once.keyed.eq_of_key hr' hr (hid'.trans hid.symm)
        exact hwrites' ▸ hwrites
      · exact holds_pure hl.kept fun _ hothers => hl.calls hothers.calls rfl
    · exact holds_pure hk fun _ hothers => (leaves_refl hk).calls hothers.calls rfl
  refine holds_seq hstart (fun _ j₁ tr₁ hl₁ => ?_) fun _ _ _ hl => Or.inl hl
  refine holds_quiet (quiet_get _) hl₁ (fun cancelled j₂ tr₂ _ hl₂ => ?_) fun _ _ _ hl => Or.inl hl
  split_ifs
  · exact turned_of_quiet quiet_ending hl₂ (Or.inl rfl)
  refine holds_quiet (quiet_get _) hl₂ (fun paused j₃ tr₃ _ hl₃ => ?_) fun _ _ _ hl => Or.inl hl
  split_ifs
  · exact turned_of_quiet quiet_ending hl₃ (Or.inl rfl)
  refine holds_quiet quiet_elapsedWall hl₃ (fun elapsed j₄ tr₄ _ hl₄ => ?_) fun _ _ _ hl => Or.inl hl
  split_ifs
  · exact turned_of_quiet (quiet_bind calm_event fun _ => quiet_ending) hl₄ (Or.inl rfl)
  have hrow₄ : (row.callId, row.mutating) ∈ marks j₄ := hl₄.rows ▸ hfresh.there
  have htr₄ : executions tr₄ = executions tr := hl₄.ran.trans (List.append_nil _)
  refine holds_mono (holds_executePlanned hl₄.kept ?_ ?_ hstuck) fun _ j₅ tr₅ ht => ?_
  · obtain ⟨r, hr, hid, -⟩ := mem_marks.mp hrow₄
    exact ⟨r, hr, hid⟩
  · intro hmark
    rw [htr₄]
    obtain ⟨r, hr, hid, hwrites⟩ := mem_marks.mp hmark
    obtain ⟨r', hr', hid', hwrites'⟩ := mem_marks.mp hrow₄
    obtain rfl := hl₄.kept.once.keyed.eq_of_key hr hr' (hid.trans hid'.symm)
    have hrow : row.mutating = true := hwrites' ▸ hwrites
    refine hfresh.free hrow ?_
    cases hstate : row.state with
    | pending => rfl
    | admitted => exact absurd ⟨hstate, hrow⟩ huncertain
    | completed => exact absurd hstate hcompleted
  · rcases ht with hl | hl
    · exact Or.inl ⟨hl.kept, hl.rows.trans hl₄.rows, by rw [hl.ran, htr₄]⟩
    · exact Or.inr ⟨hl.kept, hl.rows.trans hl₄.rows, by rw [hl.ran, htr₄]⟩

theorem calm_completePlan {receipts : List Dict} : Quiet Unmoved Talk (completePlan receipts) :=
  quiet_bind quiet_currentWorkspaceRevision fun _ => quiet_bind (quiet_get _) fun _ =>
    quiet_ite calm_finish calm_finish

theorem holds_continueCalls {given : Bool} {budget : Budget} {usage : Usage} {receipts : List Dict}
    {rows : List CallRow} (hk : Kept stuck j tr) (hkeyed : Keyed CallRow.callId rows)
    (hfresh : ∀ row ∈ rows, Fresh stuck j tr row) :
    Holds (contract stuck) (fun _ => Kept stuck)
      (continueCalls host given budget usage receipts rows) j tr := by
  induction rows generalizing usage receipts j tr with
  | nil =>
    exact holds_mono (holds_calls (calls_of_unmoved calm_completePlan) hk)
      fun _ _ _ ⟨hcalls, htr⟩ => kept_congr hcalls htr hk
  | cons row rows ih =>
    obtain ⟨hnew, hrest⟩ := List.nodup_cons.mp hkeyed
    refine holds_seq (holds_continueCall hk (hfresh row (List.mem_cons_self ..)))
      (fun turnout j₁ tr₁ ht => ?_) fun _ _ _ ht => ht.kept
    cases turnout with
    | goesOn usage' receipts' =>
      refine ih ht.kept hrest fun row' hrow' => ?_
      have hid : row'.callId ≠ row.callId := fun hid => hnew (hid ▸ List.mem_map_of_mem hrow')
      exact fresh_of_turned (hfresh row' (List.mem_cons_of_mem _ hrow')) hid ht
    | ends result => exact holds_pure ht.kept fun _ hothers => kept_congr hothers.calls rfl ht.kept

theorem perm_inOrder (j : Journal) : j.inOrder.Perm j.calls := List.perm_insertionSort _ _

theorem holds_continueRun {given : Bool} (hk : Kept stuck j tr) :
    Holds (contract stuck) (fun _ => Kept stuck) (continueRun host given) j tr := by
  refine holds_quiet (quiet_get _) (leaves_refl hk) (fun cancelled j₁ tr₁ _ hl₁ => ?_)
    fun _ _ _ hl => hl.kept
  split_ifs
  · exact holds_mono (holds_calls (calls_of_unmoved calm_finish) hl₁.kept)
      fun _ _ _ ⟨hcalls, htr⟩ => kept_congr hcalls htr hl₁.kept
  refine holds_quiet (quiet_get _) hl₁ (fun budget j₂ tr₂ _ hl₂ => ?_) fun _ _ _ hl => hl.kept
  refine holds_quiet (quiet_get _) hl₂ (fun usage j₃ tr₃ _ hl₃ => ?_) fun _ _ _ hl => hl.kept
  refine holds_get hl₃.kept fun j₄ hothers₄ => ?_
  have hk₄ : Kept stuck j₄ tr₃ := kept_congr hothers₄.calls rfl hl₃.kept
  have hperm := perm_inOrder j₄
  exact holds_continueCalls hk₄ ((hperm.map _).nodup_iff.mpr hk₄.once.keyed)
    fun row hrow => fresh_of_mem hk₄ (hperm.mem_iff.mp hrow)

/-! ### Runs -/

theorem holds_storeCalls {position : ℕ} {plan : List PlannedCall} (hk : Kept stuck j tr) :
    Holds (contract stuck) (fun _ => Kept stuck) (storeCalls host position plan) j tr := by
  induction plan generalizing position j with
  | nil => exact holds_pure hk fun _ hothers => kept_congr hothers.calls rfl hk
  | cons raw plan ih => exact holds_insertCall hk (fun _ _ _ _ hk => ih hk) fun _ _ hk => hk

theorem holds_storePlan {request : String} {plan : List PlannedCall} {resume : Bool}
    (hk : Kept stuck j tr) :
    Holds (contract stuck) (fun _ => Kept stuck) (storePlan host request plan resume) j tr := by
  unfold storePlan
  split_ifs
  · refine holds_quiet (quiet_get _) (leaves_refl hk) (fun _ j₁ tr₁ _ hl₁ => ?_) fun _ _ _ hl => hl.kept
    exact holds_mono (holds_calls quiet_require hl₁.kept)
      fun _ _ _ ⟨hcalls, htr⟩ => kept_congr hcalls htr hl₁.kept
  · refine holds_quiet (quiet_get _) (leaves_refl hk) (fun _ j₁ tr₁ _ hl₁ => ?_) fun _ _ _ hl => hl.kept
    refine holds_quiet quiet_require hl₁ (fun _ j₂ tr₂ _ hl₂ => ?_) fun _ _ _ hl => hl.kept
    refine holds_quiet (calls_of_unmoved calm_started) hl₂ (fun _ j₃ tr₃ _ hl₃ => ?_)
      fun _ _ _ hl => hl.kept
    exact holds_storeCalls hl₃.kept

theorem holds_silent {p : Engine α}
    (h : Holds (contract stuck) (fun _ => Kept stuck) p j tr) :
    Holds (contract stuck) (fun _ => Kept stuck) (silent p) j tr :=
  holds_seq h (fun _ _ _ hk => holds_pure hk fun _ hothers => kept_congr hothers.calls rfl hk)
    fun _ _ _ hk => hk

/-- **Every operation keeps the invariant**, at every border of its statements. -/
theorem holds_program (call : Host × Op) (hk : Kept stuck j tr) :
    Holds (contract stuck) (fun _ => Kept stuck) (program call) j tr := by
  obtain ⟨host, op⟩ := call
  have hcalm : Op.Calm op → Holds (contract stuck) (fun _ => Kept stuck) (program (host, op)) j tr :=
    fun hop => holds_mono (holds_calls (calls_of_unmoved (calm_program hop)) hk)
      fun _ _ _ ⟨hcalls, htr⟩ => kept_congr hcalls htr hk
  cases op with
  | run request plan resume given =>
    exact holds_seq (holds_storePlan hk) (fun _ _ _ hk => holds_silent (holds_continueRun hk))
      fun _ _ _ hk => hk
  | storePlan => exact holds_storePlan hk
  | continueRun => exact holds_silent (holds_continueRun hk)
  | executeIncremental => exact holds_silent (holds_executeIncremental hk)
  | _ => exact hcalm trivial

abbrev Settled (stuck : Option (CallRow × ℕ)) (s : Session) : Prop :=
  Guarded (fun _ => contract stuck) (Kept stuck) s

theorem settled_next {s : Session} (h : Settled stuck s) (e : Happening) :
    Settled stuck (next program cancel s e) :=
  guarded_next h e (fun call _ _ hk => holds_program call hk) (fun _ _ _ _ _ _ => trivial)
    (fun _ _ _ _ _ hk => hk) (fun x _ j => others_cancel x j)
    fun x j _ hk => kept_congr (others_cancel x j).calls rfl hk

theorem settled_run {s : Session} (h : Settled stuck s) (happenings : List Happening) :
    Settled stuck (Smara.Lib.Machine.run (next program cancel) s happenings) :=
  Smara.Lib.Machine.inv_run (I := Settled stuck) (G := fun _ _ => True)
    (fun _ e h _ => settled_next h e) h (Smara.Lib.Machine.along_of_forall fun _ _ => trivial)

theorem kept_of_settled {s : Session} (h : Settled stuck s) : Kept stuck s.store s.trace := by
  obtain ⟨j, running, tr⟩ := s
  cases running with
  | none => exact h
  | some call => exact inv_of_holds h

theorem kept_empty : Kept none {} [] :=
  ⟨⟨List.nodup_nil, fun _ h => absurd h List.not_mem_nil, fun _ h => absurd h List.not_mem_nil⟩,
    fun _ h => nomatch h⟩

theorem settled_arrived (happenings : List Happening) : Settled none (arrived happenings) := by
  have hstart : Settled none { store := {} } := kept_empty
  exact settled_run hstart happenings

/-- **A row that is closed stays what it is**, and is not executed any more. -/
theorem stuck_arrived {happenings : List Happening} {row : CallRow}
    (hrest : (arrived happenings).running = none) (hrow : row ∈ (arrived happenings).store.calls)
    (hclosed : Closed row) (later : List Happening) :
    Stuck row ((executions (arrived happenings).trace).count row.callId)
      (arrived (happenings ++ later)).store (arrived (happenings ++ later)).trace := by
  let n := (executions (arrived happenings).trace).count row.callId
  have hk := kept_of_settled (settled_arrived happenings)
  have hstart : Settled (some (row, n)) (arrived happenings) := by
    have hkept : Kept (some (row, n)) (arrived happenings).store (arrived happenings).trace := by
      refine ⟨hk.once, fun p hp => ?_⟩
      obtain rfl := Option.some.inj hp
      exact ⟨hrow, hclosed, rfl⟩
    unfold Settled Guarded
    rw [hrest]
    exact hkept
  have hlater := kept_of_settled (settled_run hstart later)
  have hrun : arrived (happenings ++ later) =
      Smara.Lib.Machine.run (next program cancel) (arrived happenings) later :=
    Smara.Lib.Machine.run_append _ _ _
  rw [hrun]
  exact hlater.stuck _ rfl

end Smara.Harness.Admission
