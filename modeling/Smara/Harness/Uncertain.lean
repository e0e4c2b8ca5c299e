import Smara.Harness.Admission

/-! # What an uncertain call blocks

A mutating row that is found `admitted` may have been executed. `at_most_once` puts together that it is
not executed again, and what the operations that meet it come to; `Ends` speaks of every way an
operation may go, with cancellations between its statements.

* `ends_prepareResume`, `ends_executeIncremental`, `ends_continueRun`: the three operations.
* `cancelled_before_uncertain`: the cancellation comes first. -/

namespace Smara.Harness.Uncertain

open Lib.Table Lib.Scripts
open Goals.Schema (Json)
open Harness.Schema Harness.Engine Harness.Frames Harness.Admission

variable {host : Host} {j j' : Journal} {tr tr' : List (Exchange Answer)} {α β : Type}

/-! ### Ends -/

/-- Whatever the others do that `rely` allows. -/
def anyhow (rely : Journal → Journal → Prop) (hrefl : ∀ j, rely j j)
    (htrans : ∀ {j j' j''}, rely j j' → rely j' j'' → rely j j'') : Contract Journal Answer where
  rely := rely
  admits _ _ _ := True
  inv _ _ := True
  refl := hrefl
  trans := htrans
  stable _ _ := trivial

abbrev meanwhile : Contract Journal Answer := anyhow Others others_refl others_trans

abbrev alone : Contract Journal Answer := anyhow Eq (fun _ => rfl) Eq.trans

def Ends (C : Contract Journal Answer) (Q : Except Err α → Prop) (p : Engine α) (j : Journal) : Prop :=
  ∀ tr, Holds C (fun r _ _ => Q r) p j tr

section Ends
variable {rely : Journal → Journal → Prop} {hrefl : ∀ j, rely j j}
  {htrans : ∀ {j j' j''}, rely j j' → rely j' j'' → rely j j''} {Q : Except Err β → Prop}

theorem ends_get {f : Journal → α} {next : α → Engine β}
    (h : ∀ j', rely j j' → Ends (anyhow rely hrefl htrans) Q (next (f j')) j') :
    Ends (anyhow rely hrefl htrans) Q (get f >>= next) j :=
  fun tr => holds_get trivial fun j' hr => h j' hr tr

theorem ends_require {p : Prop} [Decidable p] {e : Err} {next : Unit → Engine β}
    (h : p → Ends (anyhow rely hrefl htrans) Q (next ()) j) (he : ¬ p → Q (.error e)) :
    Ends (anyhow rely hrefl htrans) Q (require p e >>= next) j :=
  fun tr => holds_require trivial (fun hp => h hp tr) fun hp _ _ => he hp

theorem ends_of_yields {p : Engine β} (h : Yields Q p) : Ends (anyhow rely hrefl htrans) Q p j :=
  fun tr => holds_of_yields (fun _ _ => trivial) h j tr

end Ends

theorem ends_calm {Q : Except Err β → Prop} {P : Except Err α → Prop} {p : Engine α}
    {next : α → Engine β} (hcalm : Quiet Unmoved Talk p) (hp : Yields P p)
    (h : ∀ a j', Unmoved j j' → P (.ok a) → Ends meanwhile Q (next a) j')
    (he : ∀ e, P (.error e) → Q (.error e)) : Ends meanwhile Q (p >>= next) j := by
  intro tr
  have hquiet : Holds meanwhile (fun _ j' tr' => Unmoved j j' ∧ Extends Talk tr tr') p j tr :=
    holds_of_quiet hcalm unmoved_refl unmoved_trans (fun h => unmoved_of_others h) fun _ _ => trivial
  exact holds_seq (holds_yields hp hquiet) (fun a j' tr' hq => h a j' hq.1.1 hq.2 tr') fun e _ _ hq => he e hq.2

theorem mem_uncertain {id : String} : id ∈ uncertain j ↔
    ∃ r ∈ j.calls, (r.state = .admitted ∧ r.mutating) ∧ r.callId = id := by
  simp [uncertain, (perm_inOrder j).mem_iff, and_assoc]

/-! ### `prepare_resume` -/

theorem ends_prepareResume {id : String} (h : id ∈ uncertain j) :
    Ends meanwhile (fun r => ∃ message, r = .error (.valueError message)) (prepareResume host) j := by
  refine ends_get fun j₁ hothers => ends_require (fun _ => ?_) fun _ => ⟨_, rfl⟩
  have hid : id ∈ uncertain j₁ := by
    obtain ⟨r, hr, hrow⟩ := mem_uncertain.mp h
    exact mem_uncertain.mpr ⟨r, hothers.calls.symm ▸ hr, hrow⟩
  refine ends_get fun j₂ _ => ends_require (fun _ => ?_) fun _ => ⟨_, rfl⟩
  refine ends_get fun j₃ _ => ends_require (fun _ => ?_) fun _ => ⟨_, rfl⟩
  exact ends_require (fun hnil => absurd hid (hnil ▸ List.not_mem_nil)) fun _ => ⟨_, rfl⟩

/-! ### `execute_incremental` -/

def Refused (r : Except Err α) : Prop :=
  ∃ what ∈ ["cancelled", "paused", "wall_seconds"], r = .error (.budgetExceeded what)

theorem yields_elapsedWall : Yields (fun r => r.isOk) elapsedWall := fun _ _ => rfl

theorem yields_currentWorkspaceRevision : Yields (fun r => r.isOk) currentWorkspaceRevision :=
  yields_get fun _ => yields_ite (fun _ => rfl) fun _ _ => rfl

theorem yields_admitted : Yields (fun r => ∀ e, r = .error e → Refused r) (admitted host) := by
  have hrefused : ∀ what ∈ ["cancelled", "paused", "wall_seconds"],
      ∀ e, (Except.error (Err.budgetExceeded what) : Except Err Unit) = .error e →
        Refused (.error (Err.budgetExceeded what) : Except Err Unit) :=
    fun what hwhat _ _ => ⟨what, hwhat, rfl⟩
  refine yields_get fun _ => yields_require (fun _ => ?_) fun _ => hrefused _ (by decide)
  refine yields_get fun _ => yields_require (fun _ => ?_) fun _ => hrefused _ (by decide)
  refine yields_get fun _ => yields_bind yields_elapsedWall (fun _ _ => ?_) fun _ h => nomatch h
  unfold require
  split_ifs
  · exact fun _ => nofun
  · exact hrefused _ (by decide)

def Answered (host : Host) (call : ToolCall) (j : Journal) : Prop :=
  call.name ∈ reusableReadTools ∧ ∃ revision,
    (lookup Prod.fst (fingerprint host call.name call.arguments revision) j.state.receiptCache).isSome

theorem ends_executeIncremental {call : ToolCall} (hkeyed : Keyed CallRow.callId j.calls)
    (h : call.callId ∈ uncertain j) :
    Ends meanwhile (fun r => r = .error (.runtimeError ("uncertain mutation: " ++ call.callId)) ∨
      Refused r ∨ Answered host call j) (executeIncremental host call) j := by
  have hrequire : Yields (fun r => r.isOk) (requireRevision call) :=
    yields_ite (fun _ => rfl) fun _ => ⟨fun _ _ => nofun, rfl⟩
  refine ends_calm quiet_requireRevision hrequire (fun _ j₁ hmoved₁ _ => ?_) fun _ h => nomatch h
  refine ends_calm quiet_admitted yields_admitted (fun _ j₂ hmoved₂ _ => ?_) fun e hraised => ?_
  · refine ends_get fun j₃ hothers₃ => ?_
    refine ends_calm quiet_currentWorkspaceRevision yields_currentWorkspaceRevision
      (fun revision j₄ hmoved₄ _ => ?_) fun _ h => nomatch h
    refine ends_get fun j₅ hothers₅ => ?_
    have hmoved : Unmoved j j₅ := unmoved_trans hmoved₁ (unmoved_trans hmoved₂
      (unmoved_trans (unmoved_of_others hothers₃) (unmoved_trans hmoved₄ (unmoved_of_others hothers₅))))
    split
    · next hcached =>
      have hanswered : Answered host call j := by
        split_ifs at hcached with hread
        rw [hmoved.cache] at hcached
        exact ⟨hread, revision, by rw [hcached]; rfl⟩
      exact ends_of_yields (yields_any fun _ => Or.inr (Or.inr hanswered))
    · refine ends_get fun j₆ hothers₆ => ?_
      have hcalls : j₆.calls = j.calls := hothers₆.calls.trans hmoved.calls
      obtain ⟨r, hr, ⟨hadmitted, hwrites⟩, hid⟩ := mem_uncertain.mp h
      have hcall : j₆.call call.callId = some r := by
        unfold Journal.call
        rw [hcalls, ← hid]
        exact lookup_key hkeyed hr
      rw [hcall]
      dsimp only
      rw [if_neg (by rw [hadmitted]; decide), if_pos ⟨hadmitted, hwrites⟩]
      exact ends_of_yields (Or.inl rfl)
  · obtain ⟨what, hwhat, hequal⟩ := hraised e rfl
    cases hequal
    exact Or.inr (Or.inl ⟨what, hwhat, rfl⟩)

/-! ### `continue_run` -/

def stopped : List RunStatus :=
  [.needsInput, .cancelled, .interrupted, .budgetExhausted, .denied, .toolError]

def StopsFor (status : RunStatus) (reason : String) (r : RunResult) : Prop :=
  r.status = status ∧ r.unresolvedItems = [reason]

theorem yields_finish {status : RunStatus} {receipts : List Dict} {reason : String} :
    Yields (fun r => ∃ res, r = .ok res ∧ StopsFor status reason res)
      (finish status receipts [reason]) :=
  yields_get fun _ => yields_get fun _ => yields_put fun _ => ⟨fun _ _ => nofun, _, rfl, rfl, rfl⟩

theorem yields_ending {status : RunStatus} {receipts : List Dict} {reason : String} :
    Yields (fun r => ∃ res, r = .ok (.ends res) ∧ StopsFor status reason res)
      (ending status receipts reason) := by
  refine yields_bind yields_finish (fun a ha => ?_) fun e he => ?_
  · obtain ⟨res, hequal, hstops⟩ := ha
    cases hequal
    exact ⟨_, rfl, hstops⟩
  · obtain ⟨res, hequal, -⟩ := he
    cases hequal

def Stops (r : Except Err Turnout) : Prop := ∀ res, r = .ok (.ends res) → res.status ∈ stopped

theorem stops_ending {status : RunStatus} {receipts : List Dict} {reason : String}
    (h : status ∈ stopped) : Yields Stops (ending status receipts reason) := by
  refine yields_mono yields_ending fun r ⟨res, hequal, hstops, _⟩ res' hequal' => ?_
  rw [hequal] at hequal'
  cases hequal'
  rw [hstops]
  exact h

theorem failedStatus_mem (r : ToolResult) : failedStatus r ∈ stopped := by
  unfold failedStatus
  split_ifs <;> decide

theorem stops_executePlanned {given : Bool} {usage : Usage} {receipts : List Dict} {row : CallRow} :
    Yields Stops (executePlanned host given usage receipts row) := by
  have hany : ∀ {γ : Type} (p : Engine γ), Yields (fun _ => True) p := fun _ => yields_any fun _ => trivial
  refine yields_bind (hany _) (fun _ _ => ?_) fun _ _ _ => nofun
  refine yields_request fun o => yields_bind (hany _) (fun result _ => ?_) fun _ _ _ => nofun
  refine yields_bind (hany _) (fun _ _ => ?_) fun _ _ _ => nofun
  exact yields_ite (fun _ _ => nofun) fun _ => stops_ending (failedStatus_mem result)

theorem stops_continueCall {given : Bool} {budget : Budget} {usage : Usage} {receipts : List Dict}
    {row : CallRow} : Yields Stops (continueCall host given budget usage receipts row) := by
  refine yields_ite (fun _ _ => nofun) fun _ => yields_ite (fun _ => stops_ending (by decide)) fun _ => ?_
  refine yields_bind (yields_any fun _ => trivial) (fun _ (_ : True) => ?_) fun _ _ _ => nofun
  refine yields_get fun _ => yields_ite (fun _ => stops_ending (by decide)) fun _ => ?_
  refine yields_get fun _ => yields_ite (fun _ => stops_ending (by decide)) fun _ => ?_
  refine yields_bind (yields_any fun _ => trivial) (fun _ (_ : True) => ?_) fun _ _ _ => nofun
  refine yields_ite (fun _ => ?_) fun _ => stops_executePlanned
  exact yields_bind (yields_any fun _ => trivial) (fun _ (_ : True) => stops_ending (by decide))
    fun _ _ _ => nofun

theorem continueCall_uncertain {given : Bool} {budget : Budget} {usage : Usage} {receipts : List Dict}
    {row : CallRow} (hadmitted : row.state = .admitted) (hwrites : row.mutating) :
    continueCall host given budget usage receipts row =
      ending .needsInput receipts ("uncertain mutation: " ++ row.callId) := by
  unfold continueCall
  rw [if_neg (by rw [hadmitted]; decide), if_pos ⟨hadmitted, hwrites⟩]

theorem yields_continueCalls {given : Bool} {budget : Budget} {usage : Usage} {receipts : List Dict}
    {rows : List CallRow} {row : CallRow} (hrow : row ∈ rows) (hadmitted : row.state = .admitted)
    (hwrites : row.mutating) :
    Yields (fun r => ∀ res, r = .ok res → res.status ∈ stopped)
      (continueCalls host given budget usage receipts rows) := by
  induction rows generalizing usage receipts with
  | nil => exact absurd hrow List.not_mem_nil
  | cons row' rows ih =>
    by_cases hfirst : row' = row
    · rw [← hfirst] at hadmitted hwrites
      refine yields_bind (P := fun r => ∃ res, r = .ok (.ends res) ∧ res.status = .needsInput) ?_
        (fun turnout ht => ?_) fun _ _ _ => nofun
      · rw [continueCall_uncertain hadmitted hwrites]
        exact yields_mono yields_ending fun r ⟨res, hequal, hstatus, _⟩ => ⟨res, hequal, hstatus⟩
      · obtain ⟨res, hequal, hstatus⟩ := ht
        cases hequal
        intro res' hequal'
        cases hequal'
        rw [hstatus]
        decide
    · have hrest := (List.mem_cons.mp hrow).resolve_left fun h => hfirst h.symm
      refine yields_bind stops_continueCall (fun turnout ht => ?_) fun _ _ _ => nofun
      cases turnout with
      | goesOn usage' receipts' => exact ih hrest
      | ends res =>
        intro res' hequal
        cases hequal
        exact ht _ rfl

theorem yields_firstUncertain {given : Bool} {budget : Budget} {usage : Usage} {receipts : List Dict}
    {rows : List CallRow} {row : CallRow} (hfirst : rows.find? (fun r => r.state ≠ .completed) = some row)
    (hadmitted : row.state = .admitted) (hwrites : row.mutating) :
    Yields (fun r => ∃ res, r = .ok res ∧ StopsFor .needsInput ("uncertain mutation: " ++ row.callId) res)
      (continueCalls host given budget usage receipts rows) := by
  induction rows generalizing usage receipts with
  | nil => cases hfirst
  | cons row' rows ih =>
    rw [List.find?_cons] at hfirst
    by_cases hcompleted : row'.state = .completed
    · rw [decide_eq_false (not_not.mpr hcompleted)] at hfirst
      have hturn : continueCall host given budget usage receipts row' =
          pure (.goesOn usage (receipts ++ row'.result.toList)) := if_pos hcompleted
      unfold continueCalls
      rw [hturn]
      exact ih hfirst
    · rw [decide_eq_true hcompleted] at hfirst
      obtain rfl := Option.some.inj hfirst
      unfold continueCalls
      rw [continueCall_uncertain hadmitted hwrites]
      refine yields_bind yields_ending (fun turnout ht => ?_) fun e he => ?_
      · obtain ⟨res, hequal, hstops⟩ := ht
        cases hequal
        exact ⟨res, rfl, hstops⟩
      · obtain ⟨res, hequal, -⟩ := he
        cases hequal

theorem ends_continueRun {given : Bool} {row : CallRow} (hrow : row ∈ j.calls)
    (hadmitted : row.state = .admitted) (hwrites : row.mutating) :
    Ends meanwhile (fun r => ∀ res, r = .ok res → res.status ∈ stopped) (continueRun host given) j := by
  refine ends_get fun j₁ hothers₁ => ?_
  split_ifs
  · refine ends_of_yields (yields_mono yields_finish fun r ⟨res, hequal, hstatus, _⟩ res' hequal' => ?_)
    rw [hequal] at hequal'
    cases hequal'
    rw [hstatus]
    decide
  refine ends_get fun j₂ hothers₂ => ends_get fun j₃ hothers₃ => ends_get fun j₄ hothers₄ => ?_
  have hcalls : j₄.calls = j.calls := by
    rw [hothers₄.calls, hothers₃.calls, hothers₂.calls, hothers₁.calls]
  have hrow₄ : row ∈ j₄.inOrder := (perm_inOrder j₄).mem_iff.mpr (hcalls.symm ▸ hrow)
  exact ends_of_yields (yields_continueCalls hrow₄ hadmitted hwrites)

theorem ends_firstUncertain {given : Bool} {row : CallRow} (hcancelled : j.state.cancelled = false)
    (hfirst : j.inOrder.find? (fun r => r.state ≠ .completed) = some row)
    (hadmitted : row.state = .admitted) (hwrites : row.mutating) :
    Ends alone (fun r => ∃ res, r = .ok res ∧
      StopsFor .needsInput ("uncertain mutation: " ++ row.callId) res) (continueRun host given) j := by
  refine ends_get fun j₁ h₁ => ?_
  obtain rfl : j = j₁ := h₁
  rw [hcancelled]
  refine ends_get fun j₂ h₂ => ends_get fun j₃ h₃ => ends_get fun j₄ h₄ => ?_
  obtain rfl : j₃ = j₄ := h₄
  obtain rfl : j₂ = j₃ := h₃
  obtain rfl : j = j₂ := h₂
  exact ends_of_yields (yields_firstUncertain hfirst hadmitted hwrites)

/-! ### At most once -/

/-- What the operations that meet an uncertain call come to. -/
structure Blocks (happenings : List Happening) (row : CallRow) : Prop where
  /-- it is never executed again, and stays as it is -/
  never : ∀ later, row ∈ (arrived (happenings ++ later)).store.calls ∧
    (executions (arrived (happenings ++ later)).trace).count row.callId =
      (executions (arrived happenings).trace).count row.callId
  resumes : ∀ host, Ends meanwhile (fun r => ∃ message, r = .error (.valueError message))
    (prepareResume host) (arrived happenings).store
  executes : ∀ host call, call.callId = row.callId →
    Ends meanwhile (fun r => r = .error (.runtimeError ("uncertain mutation: " ++ row.callId)) ∨
      Refused r ∨ Answered host call (arrived happenings).store)
      (executeIncremental host call) (arrived happenings).store
  continues : ∀ host given, Ends meanwhile (fun r => ∀ res, r = .ok res → res.status ∈ stopped)
    (continueRun host given) (arrived happenings).store
  /-- if it is the first call to do, and nobody has cancelled -/
  first : (arrived happenings).store.state.cancelled = false →
    (arrived happenings).store.inOrder.find? (fun r => r.state ≠ .completed) = some row →
    ∀ host given, Ends alone (fun r => ∃ res, r = .ok res ∧
      StopsFor .needsInput ("uncertain mutation: " ++ row.callId) res)
      (continueRun host given) (arrived happenings).store

/-- **A mutating call is executed at most once**, and an uncertain one blocks. -/
structure AtMostOnce (happenings : List Happening) : Prop where
  once : ∀ row ∈ (arrived happenings).store.calls, row.mutating →
    (executions (arrived happenings).trace).count row.callId ≤ 1
  blocks : (arrived happenings).running = none → ∀ row ∈ (arrived happenings).store.calls,
    row.state = .admitted → row.mutating → Blocks happenings row

theorem at_most_once (happenings : List Happening) : AtMostOnce happenings := by
  have honce := (kept_of_settled (settled_arrived happenings)).once
  refine ⟨honce.once, fun hrest row hrow hadmitted hwrites => ?_⟩
  have huncertain : row.callId ∈ uncertain (arrived happenings).store :=
    mem_uncertain.mpr ⟨row, hrow, ⟨hadmitted, hwrites⟩, rfl⟩
  have hstuck := stuck_arrived hrest hrow (Or.inr ⟨hadmitted, hwrites⟩)
  refine ⟨fun later => ⟨(hstuck later).here, (hstuck later).count⟩, fun host => ends_prepareResume huncertain,
    fun host call hid => ?_, fun host given => ends_continueRun hrow hadmitted hwrites,
    fun hcancelled hfirst host given => ends_firstUncertain hcancelled hfirst hadmitted hwrites⟩
  rw [← hid] at huncertain ⊢
  exact ends_executeIncremental honce.keyed huncertain

/-! ### A cancelled session -/

def engine : Host where
  sessionId := "session"
  workspace := "/work"
  budget := {}
  encode _ := "json"
  sha text := text

/-- The answers of a machine whose executors have nothing to say. -/
def answers : (i : Ask) → Answer i
  | .clock => (0 : ℤ)
  | .uuid => "uuid"
  | .revision => "revision"
  | .store _ => (.ok "artifact" : Except Err String)
  | .processes => ([] : List Process)
  | .review _ => ({ contractErrors := [], artifactVerified := false, researchErrors := [] } : Review)
  | .execute _ _ => Outcome.other

def statements (n : ℕ) : List Happening := List.replicate n (.step answers)

def crashed : List Happening :=
  [.start (engine, .beginIncremental "Write a note")] ++ statements 13 ++
    [.start (engine, .executeIncremental
      { callId := "call", name := "write_file", arguments := [], workspaceId := "/work" })] ++
    statements 20 ++ [.crash true]

def cancelledThen : List Happening :=
  crashed ++ [.disturb .flag, .start (engine, .continueRun true)] ++ statements 10

/-- The uncertain call is there, but the run ends with the cancellation and does not need input. -/
theorem cancelled_before_uncertain :
    ((arrived crashed).running.isNone ∧
      (arrived crashed).store.calls.map (fun r => (r.callId, r.state, r.mutating)) =
        [("call", .admitted, true)]) ∧
    (arrived cancelledThen).running.isNone ∧
      (arrived cancelledThen).store.state.result.map RunResult.status = some .cancelled := by
  decide

end Smara.Harness.Uncertain
