import Smara.Harness.Uncertain

/-! # Receipts of completed calls

A completed row is to carry the receipt of its call, from which a later execution of the same call is
answered. A read that a receipt of another call answers gets a row, too, but the receipt stands in its
last column and `NULL` in the column of the result.

* `Sound`: what holds between two statements as long as no such row is written.
* `receipts_kept`: in every run without such a read, completed rows carry their receipts for good, and
  are answered from them.
* `no_receipt_after_reuse`: a run with such a read. -/

namespace Smara.Harness.Receipts

open Lib.Machine (Along)
open Lib.Table Lib.Scripts
open Goals.Schema (Json)
open Harness.Schema Harness.Engine Harness.Frames Harness.Admission
open Harness.Uncertain

variable {host : Host} {j j' : Journal} {tr tr' : List (Exchange Answer)} {α β : Type}
  {admits : Journal → (i : Ask) → Answer i → Prop}

/-! ### The invariant -/

/-- The dictionary is the receipt of an execution of the call, and decodes to its result: what the
executor has returned, if that is a result of the call. -/
def ReceiptFor (tr : List (Exchange Answer)) (id : String) (d : Dict) : Prop :=
  ∃ (result : ToolResult) (aid : String) (call : ToolCall) (given : Bool) (o : Outcome),
    d = receiptOf result aid ∧ ToolResult.ofDict (withoutArtifact d) = some result ∧
      result.callId = id ∧ call.callId = id ∧
      (⟨.execute call given, some o⟩ : Exchange Answer) ∈ tr ∧
      ∀ r, o = .returned r → r.callId = id → result = r

/-- **Completed rows carry their receipts**, and what is kept for reuse is receipts. -/
structure Sound (j : Journal) (tr : List (Exchange Answer)) : Prop where
  keyed : Keyed CallRow.callId j.calls
  completed : ∀ r ∈ j.calls, r.state = .completed → ∃ d ∈ r.result, ReceiptFor tr r.callId d
  cache : ∀ p ∈ j.state.receiptCache, ∃ result aid, p.2 = receiptOf result aid

theorem receiptFor_mono {id : String} {d : Dict} (h : ReceiptFor tr id d) (htr : ∀ e ∈ tr, e ∈ tr') :
    ReceiptFor tr' id d := by
  obtain ⟨result, aid, call, given, o, hd, hdecodes, hid, hcall, hmem, ho⟩ := h
  exact ⟨result, aid, call, given, o, hd, hdecodes, hid, hcall, htr _ hmem, ho⟩

theorem sound_mono (h : Sound j tr) (hmoved : Unmoved j j') (htr : ∀ e ∈ tr, e ∈ tr') :
    Sound j' tr' := by
  refine ⟨hmoved.calls.symm ▸ h.keyed, fun r hr hcompleted => ?_, hmoved.cache.symm ▸ h.cache⟩
  obtain ⟨d, hd, hreceipt⟩ := h.completed r (hmoved.calls ▸ hr) hcompleted
  exact ⟨d, hd, receiptFor_mono hreceipt htr⟩

def sound (admits : Journal → (i : Ask) → Answer i → Prop) : Contract Journal Answer where
  rely := Others
  admits := admits
  inv := Sound
  refl := others_refl
  trans := others_trans
  stable h hs := sound_mono hs (unmoved_of_others h) fun _ he => he

theorem sound_updCall (h : Sound j tr) {id : String} {f : CallRow → CallRow}
    (hid : ∀ r, (f r).callId = r.callId)
    (hf : ∀ r, (f r).state = .completed → ∃ d ∈ (f r).result, ReceiptFor tr id d) :
    Sound (j.updCall id f) tr := by
  refine ⟨(keyed_updateWhere fun r _ => hid r).mpr h.keyed, fun r' hr' hcompleted => ?_, h.cache⟩
  obtain ⟨r, hr, rfl⟩ := mem_updateWhere.mp hr'
  split_ifs at hcompleted ⊢ with hrow
  · rw [hid, hrow]
    exact hf r hcompleted
  · exact h.completed r hr hcompleted

theorem sound_insertCall (h : Sound j tr) {row : CallRow} (hpending : row.state = .pending)
    (hok : Journal.insertCall row j = .ok j') : Sound j' tr := by
  unfold Journal.insertCall at hok
  split_ifs at hok with hdup
  cases hok
  refine ⟨keyed_append.mpr ⟨h.keyed, List.nodup_singleton _, fun r hr r' hr' hid => ?_⟩,
    fun r hr hcompleted => ?_, h.cache⟩
  · rw [List.mem_singleton.mp hr'] at hid
    exact hdup ⟨r, hr, Or.inl hid⟩
  · rcases List.mem_append.mp hr with hr | hr
    · exact h.completed r hr hcompleted
    · rw [List.mem_singleton.mp hr, hpending] at hcompleted
      cases hcompleted

theorem sound_remember (h : Sound j tr) {cache : List (String × Dict)} {s : State}
    (hs : s.receiptCache = cache) (hcache : ∀ p ∈ cache, ∃ result aid, p.2 = receiptOf result aid) :
    Sound { j with state := s } tr := by
  refine ⟨h.keyed, h.completed, ?_⟩
  change ∀ p ∈ s.receiptCache, _
  rw [hs]
  exact hcache

/-! ### What a script keeps -/

/-- How a script leaves the journal: the exchanges go on. -/
structure GoesOn (tr : List (Exchange Answer)) (j' : Journal) (tr' : List (Exchange Answer)) :
    Prop where
  sound : Sound j' tr'
  grows : ∀ e ∈ tr, e ∈ tr'

theorem goesOn_refl (h : Sound j tr) : GoesOn tr j tr := ⟨h, fun _ he => he⟩

theorem mem_of_extends {mild : Ask → Prop} (h : Extends mild tr tr') : ∀ e ∈ tr, e ∈ tr' := by
  obtain ⟨es, rfl, -⟩ := h
  exact fun e he => List.mem_append_left _ he

theorem GoesOn.calm (h : GoesOn tr j' tr') {j'' : Journal} {tr'' : List (Exchange Answer)}
    (hmoved : Unmoved j' j'') (htr : ∀ e ∈ tr', e ∈ tr'') : GoesOn tr j'' tr'' :=
  ⟨sound_mono h.sound hmoved htr, fun e he => htr e (h.grows e he)⟩

theorem holds_calm {p : Engine α} (hp : Quiet Unmoved Talk p) (h : GoesOn tr j' tr') :
    Holds (sound admits) (fun _ j'' tr'' => Unmoved j' j'' ∧ GoesOn tr j'' tr'') p j' tr' := by
  have hquiet : Holds (sound admits) (fun _ j'' tr'' => Unmoved j' j'' ∧ Extends Talk tr' tr'') p j' tr' :=
    holds_of_quiet hp unmoved_refl unmoved_trans (fun h => unmoved_of_others h)
      fun hmoved htr => sound_mono h.sound hmoved (mem_of_extends htr)
  exact holds_mono hquiet fun _ _ _ hq => ⟨hq.1, h.calm hq.1 (mem_of_extends hq.2)⟩

variable {R : Except Err β → Journal → List (Exchange Answer) → Prop}

theorem holds_calm_then {p : Engine α} {next : α → Engine β} (hp : Quiet Unmoved Talk p)
    (h : GoesOn tr j' tr')
    (hnext : ∀ a j'' tr'', Unmoved j' j'' → GoesOn tr j'' tr'' →
      Holds (sound admits) R (next a) j'' tr'')
    (hraise : ∀ e j'' tr'', GoesOn tr j'' tr'' → R (.error e) j'' tr'') :
    Holds (sound admits) R (p >>= next) j' tr' :=
  holds_seq (holds_calm hp h) (fun a _ _ hq => hnext a _ _ hq.1 hq.2) fun e _ _ hq => hraise e _ _ hq.2

theorem holds_end {a : β} (h : GoesOn tr j' tr') (hR : ∀ j'', GoesOn tr j'' tr' → R (.ok a) j'' tr') :
    Holds (sound admits) R (pure a) j' tr' :=
  holds_pure h.sound fun _ hothers => hR _ (h.calm (unmoved_of_others hothers) fun _ he => he)

theorem holds_updCall {k : Unit → Engine β} {id : String} {f : CallRow → CallRow}
    (h : GoesOn tr j' tr') (hid : ∀ r, (f r).callId = r.callId)
    (hf : ∀ r, (f r).state = .completed → ∃ d ∈ (f r).result, ReceiptFor tr' id d)
    (hnext : ∀ j'', GoesOn tr j'' tr' → Holds (sound admits) R (k ()) j'' tr') :
    Holds (sound admits) R (put (Journal.updCall id f) >>= k) j' tr' := by
  refine holds_put h.sound fun j'' hothers => hnext _ ?_
  have hs := sound_mono h.sound (unmoved_of_others hothers) fun _ he => he
  exact ⟨sound_updCall hs hid hf, h.grows⟩

theorem holds_admitCall {usage : Usage} {id name : String} {arguments : Dict} (h : GoesOn tr j' tr') :
    Holds (sound admits) (fun _ => GoesOn tr) (admitCall host usage id name arguments) j' tr' := by
  refine holds_calm_then (calm_set fun _ => rfl) h (fun _ j₁ tr₁ _ h₁ => ?_) fun _ _ _ h => h
  refine holds_calm_then quiet_currentWorkspaceRevision h₁ (fun _ j₂ tr₂ _ h₂ => ?_) fun _ _ _ h => h
  refine holds_updCall h₂ (fun _ => rfl) (fun _ => nofun) fun j₃ h₃ => ?_
  exact holds_calm_then calm_event h₃ (fun _ j₄ tr₄ _ h₄ => holds_end h₄ fun _ h => h) fun _ _ _ h => h

theorem decodes_receiptOf (result : ToolResult) (aid : String) :
    ToolResult.ofDict (withoutArtifact (receiptOf result aid)) = some result := by
  rw [withoutArtifact_receiptOf, ToolResult.ofDict_asdict]

def ResultFor (tr : List (Exchange Answer)) (id : String) (result : ToolResult) : Prop :=
  ∀ aid, ReceiptFor tr id (receiptOf result aid)

theorem holds_record {id : String} {result : ToolResult} (h : GoesOn tr j' tr')
    (hresult : ResultFor tr id result) :
    Holds (sound admits) (fun r j'' tr'' => GoesOn tr j'' tr'' ∧
      ∀ a, r = .ok a → ∃ aid, a.1 = receiptOf result aid) (record id result) j' tr' := by
  have hafter : Quiet Unmoved Talk (revisionAfter result) := by
    unfold revisionAfter
    split
    · exact quiet_currentWorkspaceRevision
    · exact quiet_currentWorkspaceRevision
    · exact quiet_pure _
  have hevidence : ∀ after aid, Quiet Unmoved Talk (recordEvidence id result after aid) := by
    intro after aid
    exact quiet_ite (quiet_bind quiet_uuid fun _ => quiet_bind quiet_now fun _ =>
      quiet_bind (quiet_put fun _ => ⟨rfl, rfl, fun h => h⟩) fun _ => calm_event) (quiet_pure _)
  refine holds_calm_then quiet_putJson h (fun aid j₁ tr₁ _ h₁ => ?_) fun _ _ _ h => ⟨h, fun _ => nofun⟩
  refine holds_calm_then hafter h₁ (fun after j₂ tr₂ _ h₂ => ?_) fun _ _ _ h => ⟨h, fun _ => nofun⟩
  refine holds_updCall h₂ (fun _ => rfl)
    (fun _ _ => ⟨_, rfl, receiptFor_mono (hresult aid) h₂.grows⟩) fun j₃ h₃ => ?_
  refine holds_calm_then calm_event h₃ (fun _ j₄ tr₄ _ h₄ => ?_) fun _ _ _ h => ⟨h, fun _ => nofun⟩
  refine holds_calm_then (hevidence after aid) h₄ (fun _ j₅ tr₅ _ h₅ => ?_)
    fun _ _ _ h => ⟨h, fun _ => nofun⟩
  exact holds_end h₅ fun _ h => ⟨h, fun a ha => ⟨aid, (Except.ok.inj ha) ▸ rfl⟩⟩

/-! ### The results of executors -/

def Faithful (id : String) (o : Outcome) (result : ToolResult) : Prop :=
  result.callId = id ∧ ∀ r, o = .returned r → r.callId = id → result = r

theorem resultFor_of_faithful {call : ToolCall} {given : Bool} {o : Outcome} {result : ToolResult}
    (h : Faithful call.callId o result)
    (hmem : (⟨.execute call given, some o⟩ : Exchange Answer) ∈ tr) :
    ResultFor tr call.callId result :=
  fun aid => ⟨result, aid, call, given, o, rfl, decodes_receiptOf result aid, h.1, rfl, hmem, h.2⟩

theorem faithful_outcomeOf {id : String} (o : Outcome) :
    Yields (fun r => ∀ result, r = .ok result → Faithful id o result) (outcomeOf id o) := by
  cases o with
  | returned r =>
    intro result hresult
    obtain rfl := Except.ok.inj hresult
    split_ifs with hid
    · exact ⟨hid, fun r' hr' _ => Outcome.returned.inj hr'⟩
    · exact ⟨rfl, fun r' hr' hid' => absurd (Outcome.returned.inj hr' ▸ hid') hid⟩
  | other =>
    intro result hresult
    obtain rfl := Except.ok.inj hresult
    exact ⟨rfl, fun _ => nofun⟩
  | raised kind message => exact fun _ => nofun
  | interrupted => exact fun _ => nofun

theorem faithful_plannedOutcome {id before : String} {given : Bool} (o : Outcome) :
    Yields (fun r => ∀ result, r = .ok result → Faithful id o result)
      (plannedOutcome id before given o) := by
  have hfailed : ∀ kind message, (∀ r, o = .returned r → r.callId ≠ id) →
      Yields (fun r => ∀ result, r = .ok result → Faithful id o result)
        (plannedOutcome.failed id before kind message) := by
    intro kind message hno
    refine yields_bind yields_currentWorkspaceRevision (fun after _ => ?_) fun _ h => nomatch h
    intro result hresult
    obtain rfl := Except.ok.inj hresult
    exact ⟨rfl, fun r hr hid => absurd hid (hno r hr)⟩
  cases o with
  | returned r =>
    refine yields_ite (fun _ => ?_) fun _ => yields_ite (fun hid => ?_) fun hid => ?_
    · intro result hresult
      obtain rfl := Except.ok.inj hresult
      refine ⟨rfl, fun r' hr' hid' => ?_⟩
      obtain rfl := Outcome.returned.inj hr'
      rw [← hid']
    · intro result hresult
      obtain rfl := Except.ok.inj hresult
      exact ⟨hid, fun r' hr' _ => Outcome.returned.inj hr'⟩
    · exact hfailed _ _ fun r' hr' => Outcome.returned.inj hr' ▸ hid
  | other => exact hfailed _ _ fun _ => nofun
  | raised kind message => exact hfailed _ _ fun _ => nofun
  | interrupted => exact fun _ => ⟨fun _ _ => nofun, fun _ => nofun⟩

theorem calm_outcomeOf {id : String} (o : Outcome) : Quiet Unmoved Talk (outcomeOf id o) :=
  quiet_outcomeOf o

theorem calm_plannedOutcome {id before : String} {given : Bool} (o : Outcome) :
    Quiet Unmoved Talk (plannedOutcome id before given o) := by
  have hfailed : ∀ kind message, Quiet Unmoved Talk (plannedOutcome.failed id before kind message) :=
    fun _ _ => quiet_bind quiet_currentWorkspaceRevision fun _ => quiet_pure _
  cases o with
  | returned r => exact quiet_ite (quiet_pure _) (quiet_ite (quiet_pure _) (hfailed _ _))
  | other => exact hfailed _ _
  | raised kind message => exact hfailed _ _
  | interrupted => exact quiet_bind calm_event fun _ => quiet_raise _

theorem holds_execute {call : ToolCall} {given : Bool} {outcome : Outcome → Engine ToolResult}
    {next : ToolResult → Engine β} (h : GoesOn tr j' tr') (hcalm : ∀ o, Quiet Unmoved Talk (outcome o))
    (hfaithful : ∀ o, Yields (fun r => ∀ result, r = .ok result → Faithful call.callId o result) (outcome o))
    (hnext : ∀ result j'' tr'', GoesOn tr j'' tr'' → ResultFor tr'' call.callId result →
      Holds (sound admits) R (next result) j'' tr'')
    (hraise : ∀ e j'' tr'', GoesOn tr j'' tr'' → R (.error e) j'' tr'') :
    Holds (sound admits) R (do
      let o : Outcome ← request (Ask.execute call given)
      let result ← outcome o
      next result) j' tr' := by
  have hasked : ∀ j'' (a : Option (Answer (.execute call given))), Others j' j'' →
      GoesOn tr j'' (tr' ++ [⟨.execute call given, a⟩]) :=
    fun j'' a hothers => h.calm (unmoved_of_others hothers) fun _ he => List.mem_append_left _ he
  refine holds_request h.sound (fun j'' hothers => (hasked j'' none hothers).sound) fun j'' hothers o _ => ?_
  have hstart := hasked j'' (some o) hothers
  have hmem : (⟨.execute call given, some o⟩ : Exchange Answer) ∈
      tr' ++ [⟨.execute call given, some o⟩] := List.mem_append_right _ (List.mem_singleton.mpr rfl)
  have hcalmed : Holds (sound admits) (fun _ j₁ tr₁ => Unmoved j'' j₁ ∧
      GoesOn (tr' ++ [⟨.execute call given, some o⟩]) j₁ tr₁) (outcome o) j''
      (tr' ++ [⟨.execute call given, some o⟩]) := holds_calm (hcalm o) (goesOn_refl hstart.sound)
  have hsettled := holds_yields (hfaithful o) hcalmed
  refine holds_seq hsettled (fun result j₁ tr₁ hq => ?_) fun e j₁ tr₁ hq => ?_
  · exact hnext result j₁ tr₁ ⟨hq.1.2.sound, fun e he => hq.1.2.grows e (hstart.grows e he)⟩
      (resultFor_of_faithful (hq.2 result rfl) (hq.1.2.grows _ hmem))
  · exact hraise e j₁ tr₁ ⟨hq.1.2.sound, fun e he => hq.1.2.grows e (hstart.grows e he)⟩

/-! ### The operations -/

theorem mem_upsert {p : String × Dict} {fp : String} {d : Dict} {cache : List (String × Dict)}
    (h : p ∈ upsert Prod.fst (fp, d) (fun _ => (fp, d)) cache) : p = (fp, d) ∨ p ∈ cache := by
  unfold upsert at h
  split_ifs at h
  · obtain ⟨p', hp', rfl⟩ := mem_updateWhere.mp h
    split_ifs
    · exact Or.inl rfl
    · exact Or.inr hp'
  · rcases List.mem_append.mp h with h | h
    · exact Or.inr h
    · exact Or.inl (List.mem_singleton.mp h)

theorem holds_executeFresh {budget : Budget} {call : ToolCall} {fp : String}
    {cache : List (String × Dict)} (h : GoesOn tr j' tr')
    (hcache : ∀ p ∈ cache, ∃ result aid, p.2 = receiptOf result aid) :
    Holds (sound admits) (fun _ => GoesOn tr) (executeFresh host budget call fp cache) j' tr' := by
  refine holds_calm_then (quiet_get _) h (fun usage j₁ tr₁ _ h₁ => ?_) fun _ _ _ h => h
  refine holds_calm_then quiet_require h₁ (fun _ j₂ tr₂ _ h₂ => ?_) fun _ _ _ h => h
  refine holds_seq (holds_admitCall h₂) (fun before j₃ tr₃ h₃ => ?_) fun _ _ _ h => h
  refine holds_execute h₃ calm_outcomeOf faithful_outcomeOf (fun result j₄ tr₄ h₄ hresult => ?_)
    fun _ _ _ h => h
  refine holds_seq (holds_record (goesOn_refl h₄.sound) hresult) (fun receipt j₅ tr₅ hq => ?_)
    fun _ _ _ hq => ⟨hq.1.sound, fun e he => hq.1.grows e (h₄.grows e he)⟩
  obtain ⟨aid, hreceipt⟩ := hq.2 receipt rfl
  have h₅ : GoesOn tr j₅ tr₅ := ⟨hq.1.sound, fun e he => hq.1.grows e (h₄.grows e he)⟩
  have hremember : Holds (sound admits) (fun _ => GoesOn tr)
      (remember call fp cache result receipt.1) j₅ tr₅ := by
    unfold remember
    split_ifs
    · have hcache' : ∀ p ∈ upsert Prod.fst (fp, receipt.1) (fun _ => (fp, receipt.1)) cache,
          ∃ result aid, p.2 = receiptOf result aid := by
        intro p hp
        rcases mem_upsert hp with rfl | hp
        · exact ⟨result, aid, hreceipt⟩
        · exact hcache p hp
      refine ⟨h₅.sound, fun j₆ hothers => ⟨fun j₇ hok => ?_, fun _ => nofun⟩⟩
      have hs := sound_mono h₅.sound (unmoved_of_others hothers) fun _ he => he
      obtain rfl := Except.ok.inj hok
      exact holds_end ⟨sound_remember hs rfl hcache', h₅.grows⟩ fun _ h => h
    · exact holds_end h₅ fun _ h => h
  refine holds_seq hremember (fun _ j₆ tr₆ h₆ => ?_) fun _ _ _ h => h
  refine holds_calm_then (quiet_progress unmoved_events fun _ _ => ⟨rfl, rfl, fun h => h⟩) h₆
    (fun _ j₇ tr₇ _ h₇ => holds_end h₇ fun _ h => h) fun _ _ _ h => h

theorem calm_replay (result : Option Dict) : Quiet Unmoved Talk (replay result) := quiet_replay result

theorem holds_calm_end {p : Engine α} (hp : Quiet Unmoved Talk p) (h : GoesOn tr j' tr') :
    Holds (sound admits) (fun _ => GoesOn tr) p j' tr' :=
  holds_mono (holds_calm hp h) fun _ _ _ hq => hq.2

theorem holds_insertCall {next : Unit → Engine β} {row : CallRow} (h : GoesOn tr j' tr')
    (hpending : row.state = .pending)
    (hnext : ∀ j'', GoesOn tr j'' tr' → Holds (sound admits) R (next ()) j'' tr')
    (hraise : ∀ e j'', GoesOn tr j'' tr' → R (.error e) j'' tr') :
    Holds (sound admits) R (attempt (Journal.insertCall row) >>= next) j' tr' := by
  have hothers : ∀ j'', Others j' j'' → GoesOn tr j'' tr' :=
    fun j'' ho => h.calm (unmoved_of_others ho) fun _ he => he
  refine holds_attempt h.sound (fun j'' ho j₁ hok => ?_) fun j'' ho e => hraise e j'' (hothers j'' ho)
  exact hnext j₁ ⟨sound_insertCall (hothers j'' ho).sound hpending hok, h.grows⟩

theorem holds_executeRow {budget : Budget} {call : ToolCall} {fp : String}
    {cache : List (String × Dict)} (h : GoesOn tr j' tr')
    (hcache : ∀ p ∈ cache, ∃ result aid, p.2 = receiptOf result aid) :
    Holds (sound admits) (fun _ => GoesOn tr) (executeRow host budget call fp cache) j' tr' := by
  refine holds_calm_then (quiet_get _) h (fun existing j₁ tr₁ _ h₁ => ?_) fun _ _ _ h => h
  cases existing with
  | some row =>
    dsimp only
    split_ifs
    · exact holds_calm_end (calm_replay _) h₁
    · exact holds_calm_end (quiet_raise _) h₁
    · exact holds_executeFresh h₁ hcache
  | none =>
    refine holds_calm_then (quiet_get _) h₁ (fun position j₂ tr₂ _ h₂ => ?_) fun _ _ _ h => h
    exact holds_insertCall h₂ rfl (fun _ h => holds_executeFresh h hcache) fun _ _ h => h

/-- The call has no row yet, and a receipt for reuse answers it at the revision. -/
def Served (host : Host) (call : ToolCall) (revision : String) (j : Journal) : Prop :=
  call.name ∈ reusableReadTools ∧
    (lookup Prod.fst (fingerprint host call.name call.arguments revision)
      j.state.receiptCache).isSome ∧ (j.call call.callId).isNone

instance decidableServed (host : Host) (call : ToolCall) (revision : String) (j : Journal) :
    Decidable (Served host call revision j) := inferInstanceAs (Decidable (_ ∧ _ ∧ _))

theorem served_congr {call : ToolCall} {revision : String} (h : Unmoved j j') :
    Served host call revision j' ↔ Served host call revision j := by
  unfold Served Journal.call
  rw [h.cache, h.calls]

/-- No read without a row is answered by a receipt, as far as it goes by the answers. -/
def Spares : Host × Op → Journal → (i : Ask) → Answer i → Prop
  | (host, .executeIncremental call), j, .revision, revision => ¬ Served host call revision j
  | _, _, _, _ => True

theorem holds_reuse {call : ToolCall} {fp revision : String} {receipt : Dict} (h : GoesOn tr j' tr')
    (hrow : (j'.call call.callId).isSome) :
    Holds (sound admits) (fun _ => GoesOn tr) (reuse host call fp revision receipt) j' tr' := by
  have hstored : ∀ receipt', Holds (sound admits) (fun _ => GoesOn tr)
      (storeReused host call revision receipt') j' tr' := by
    intro receipt'
    refine holds_get h.sound fun j₁ hothers => ?_
    have h₁ : GoesOn tr j₁ tr' := h.calm (unmoved_of_others hothers) fun _ he => he
    obtain ⟨row, hcall⟩ := Option.isSome_iff_exists.mp hrow
    have hcall₁ : j₁.call call.callId = some row := by
      unfold Journal.call at hcall ⊢
      rw [hothers.calls]
      exact hcall
    rw [hcall₁]
    exact holds_end h₁ fun _ h => h
  refine holds_seq (hstored _) (fun _ j₁ tr₁ h₁ => ?_) fun _ _ _ h => h
  refine holds_calm_end (quiet_bind (quiet_get _) fun _ => quiet_bind (calm_set fun _ => rfl) fun _ =>
    quiet_bind (quiet_reused unmoved_events) fun _ => quiet_reusedAnswer) h₁

theorem not_webOnly_of_reusable {name : String} (h : name ∈ reusableReadTools) : name ∉ webOnlyTools := by
  revert name
  decide

def Depends (call : ToolCall) (j : Journal) : Prop :=
  call.name ∈ reusableReadTools → j.state.fullWorkspaceRevisionRequired

theorem depends_mono {call : ToolCall} (h : Depends call j) (hmoved : Unmoved j j') : Depends call j' :=
  fun hread => hmoved.required (h hread)

theorem holds_requireRevision {call : ToolCall} (h : GoesOn tr j' tr') :
    Holds (sound admits) (fun _ j'' tr'' => GoesOn tr j'' tr'' ∧ Depends call j'')
      (requireRevision call) j' tr' := by
  unfold requireRevision
  split_ifs with hweb
  · exact holds_end h fun _ h => ⟨h, fun hread => absurd hweb (not_webOnly_of_reusable hread)⟩
  · refine ⟨h.sound, fun j₁ hothers => ⟨fun j₂ hok => ?_, fun _ => nofun⟩⟩
    have h₁ := h.calm (unmoved_of_others hothers) fun _ he => he
    obtain rfl := Except.ok.inj hok
    have hset : Unmoved j₁
        { j₁ with state := { j₁.state with fullWorkspaceRevisionRequired := true } } :=
      ⟨rfl, rfl, fun _ => rfl⟩
    refine ⟨sound_mono h₁.sound hset fun _ he => he, fun j₃ hothers₃ => ⟨?_, fun _ => ?_⟩⟩
    · exact h₁.calm (unmoved_trans hset (unmoved_of_others hothers₃)) fun _ he => he
    · exact Others.field hothers₃ State.fullWorkspaceRevisionRequired fun _ _ => rfl

theorem holds_revision {call : ToolCall} (h : GoesOn tr j' tr') (hdepends : Depends call j') :
    Holds (sound (Spares (host, .executeIncremental call))) (fun r j'' tr'' => GoesOn tr j'' tr'' ∧
      ∀ revision, r = .ok revision → ¬ Served host call revision j'') currentWorkspaceRevision j' tr' := by
  refine holds_get h.sound fun j₁ hothers₁ => ?_
  have hmoved₁ := unmoved_of_others hothers₁
  have h₁ : GoesOn tr j₁ tr' := h.calm hmoved₁ fun _ he => he
  split_ifs with hweb
  · refine holds_end h₁ fun j₂ h₂ => ⟨h₂, fun revision _ hserved => ?_⟩
    have hrequired := depends_mono hdepends hmoved₁ hserved.1
    rw [(of_decide_eq_true hweb).2.1] at hrequired
    cases hrequired
  · have hasked : ∀ j₂ (a : Option (Answer .revision)), Others j₁ j₂ →
        GoesOn tr j₂ (tr' ++ [⟨.revision, a⟩]) :=
      fun j₂ a ho => h₁.calm (unmoved_of_others ho) fun _ he => List.mem_append_left _ he
    refine ⟨h₁.sound, fun j₂ ho => ⟨(hasked j₂ none ho).sound, fun revision hspares => ?_⟩⟩
    have h₂ := hasked j₂ (some revision) ho
    refine ⟨h₂.sound, fun j₃ ho₃ => ⟨h₂.calm (unmoved_of_others ho₃) fun _ he => he, fun revision' hr => ?_⟩⟩
    obtain rfl := Except.ok.inj hr
    exact fun hserved => hspares ((served_congr (unmoved_of_others ho₃)).mp hserved)

theorem holds_executeIncremental {call : ToolCall} (h : GoesOn tr j' tr') :
    Holds (sound (Spares (host, .executeIncremental call))) (fun _ => GoesOn tr)
      (executeIncremental host call) j' tr' := by
  refine holds_seq (holds_requireRevision h) (fun _ j₁ tr₁ hq₁ => ?_) fun _ _ _ hq => hq.1
  refine holds_calm_then quiet_admitted hq₁.1 (fun _ j₂ tr₂ hmoved₂ h₂ => ?_) fun _ _ _ h => h
  refine holds_calm_then (quiet_get _) h₂ (fun budget j₃ tr₃ hmoved₃ h₃ => ?_) fun _ _ _ h => h
  have hdepends := depends_mono (depends_mono hq₁.2 hmoved₂) hmoved₃
  refine holds_seq (holds_revision h₃ hdepends) (fun revision j₄ tr₄ hq₄ => ?_) fun _ _ _ hq => hq.1
  refine holds_get hq₄.1.sound fun j₅ hothers₅ => ?_
  have hmoved₅ := unmoved_of_others hothers₅
  have h₅ : GoesOn tr j₅ tr₄ := hq₄.1.calm hmoved₅ fun _ he => he
  split
  · next hcached =>
    refine holds_reuse h₅ ?_
    split_ifs at hcached with hread
    by_contra hnone
    refine hq₄.2 revision rfl ((served_congr hmoved₅).mp ⟨hread, by rw [hcached]; rfl, ?_⟩)
    exact Option.not_isSome_iff_eq_none.mp hnone ▸ rfl
  · exact holds_executeRow h₅ h₅.sound.cache

theorem holds_executePlanned {given : Bool} {usage : Usage} {receipts : List Dict} {row : CallRow}
    (h : GoesOn tr j' tr') :
    Holds (sound admits) (fun _ => GoesOn tr) (executePlanned host given usage receipts row) j' tr' := by
  refine holds_seq (holds_admitCall h) (fun before j₁ tr₁ h₁ => ?_) fun _ _ _ h => h
  refine holds_execute h₁ (fun o => calm_plannedOutcome o) (fun o => faithful_plannedOutcome o)
    (fun result j₂ tr₂ h₂ hresult => ?_) fun _ _ _ h => h
  refine holds_seq (holds_record (goesOn_refl h₂.sound) hresult) (fun receipt j₃ tr₃ hq => ?_)
    fun _ _ _ hq => ⟨hq.1.sound, fun e he => hq.1.grows e (h₂.grows e he)⟩
  exact holds_calm_end (quiet_ite (quiet_pure _) quiet_ending)
    ⟨hq.1.sound, fun e he => hq.1.grows e (h₂.grows e he)⟩

theorem holds_continueCall {given : Bool} {budget : Budget} {usage : Usage} {receipts : List Dict}
    {row : CallRow} (h : GoesOn tr j' tr') :
    Holds (sound admits) (fun _ => GoesOn tr)
      (continueCall host given budget usage receipts row) j' tr' := by
  unfold continueCall
  split_ifs
  · exact holds_calm_end (quiet_pure _) h
  · exact holds_calm_end quiet_ending h
  have hstart : Holds (sound admits) (fun _ => GoesOn tr) (readmitRow row) j' tr' := by
    unfold readmitRow
    split_ifs
    · exact holds_updCall (k := fun _ => pure ()) h (fun _ => rfl) (fun _ => nofun)
        fun _ h => holds_end h fun _ h => h
    · exact holds_end h fun _ h => h
  refine holds_seq hstart (fun _ j₁ tr₁ h₁ => ?_) fun _ _ _ h => h
  refine holds_calm_then (quiet_get _) h₁ (fun cancelled j₂ tr₂ _ h₂ => ?_) fun _ _ _ h => h
  split_ifs
  · exact holds_calm_end quiet_ending h₂
  refine holds_calm_then (quiet_get _) h₂ (fun paused j₃ tr₃ _ h₃ => ?_) fun _ _ _ h => h
  split_ifs
  · exact holds_calm_end quiet_ending h₃
  refine holds_calm_then quiet_elapsedWall h₃ (fun elapsed j₄ tr₄ _ h₄ => ?_) fun _ _ _ h => h
  split_ifs
  · exact holds_calm_end (quiet_bind calm_event fun _ => quiet_ending) h₄
  · exact holds_executePlanned h₄

theorem holds_continueCalls {given : Bool} {budget : Budget} {usage : Usage} {receipts : List Dict}
    {rows : List CallRow} (h : GoesOn tr j' tr') :
    Holds (sound admits) (fun _ => GoesOn tr)
      (continueCalls host given budget usage receipts rows) j' tr' := by
  induction rows generalizing usage receipts j' tr' with
  | nil => exact holds_calm_end calm_completePlan h
  | cons row rows ih =>
    refine holds_seq (holds_continueCall h) (fun turnout j₁ tr₁ h₁ => ?_) fun _ _ _ h => h
    cases turnout with
    | goesOn usage' receipts' => exact ih h₁
    | ends result => exact holds_end h₁ fun _ h => h

theorem holds_continueRun {given : Bool} (h : GoesOn tr j' tr') :
    Holds (sound admits) (fun _ => GoesOn tr) (continueRun host given) j' tr' := by
  refine holds_calm_then (quiet_get _) h (fun cancelled j₁ tr₁ _ h₁ => ?_) fun _ _ _ h => h
  split_ifs
  · exact holds_calm_end calm_finish h₁
  refine holds_calm_then (quiet_get _) h₁ (fun budget j₂ tr₂ _ h₂ => ?_) fun _ _ _ h => h
  refine holds_calm_then (quiet_get _) h₂ (fun usage j₃ tr₃ _ h₃ => ?_) fun _ _ _ h => h
  exact holds_calm_then (quiet_get _) h₃ (fun rows j₄ tr₄ _ h₄ => holds_continueCalls h₄) fun _ _ _ h => h

theorem holds_storeCalls {position : ℕ} {plan : List PlannedCall} (h : GoesOn tr j' tr') :
    Holds (sound admits) (fun _ => GoesOn tr) (storeCalls host position plan) j' tr' := by
  induction plan generalizing position j' with
  | nil => exact holds_end h fun _ h => h
  | cons raw plan ih => exact holds_insertCall h rfl (fun _ h => ih h) fun _ _ h => h

theorem holds_storePlan {request : String} {plan : List PlannedCall} {resume : Bool}
    (h : GoesOn tr j' tr') :
    Holds (sound admits) (fun _ => GoesOn tr) (storePlan host request plan resume) j' tr' := by
  unfold storePlan
  split_ifs
  · exact holds_calm_end (quiet_bind (quiet_get _) fun _ => quiet_require) h
  · refine holds_calm_then (quiet_get _) h (fun _ j₁ tr₁ _ h₁ => ?_) fun _ _ _ h => h
    refine holds_calm_then quiet_require h₁ (fun _ j₂ tr₂ _ h₂ => ?_) fun _ _ _ h => h
    exact holds_calm_then calm_started h₂ (fun _ j₃ tr₃ _ h₃ => holds_storeCalls h₃) fun _ _ _ h => h

theorem holds_silent {p : Engine α} (h : Holds (sound admits) (fun _ => GoesOn tr) p j' tr') :
    Holds (sound admits) (fun _ => GoesOn tr) (silent p) j' tr' :=
  holds_seq h (fun _ _ _ h => holds_end h fun _ h => h) fun _ _ _ h => h

/-- **Every operation keeps the receipts**, if no read is served without a row. -/
theorem holds_program (call : Host × Op) (h : Sound j tr) :
    Holds (sound (Spares call)) (fun _ => Sound) (program call) j tr := by
  obtain ⟨host, op⟩ := call
  have hend : ∀ {p : Engine Unit}, Holds (sound (Spares (host, op))) (fun _ => GoesOn tr) p j tr →
      Holds (sound (Spares (host, op))) (fun _ => Sound) p j tr :=
    fun hp => holds_mono hp fun _ _ _ h => h.sound
  have hcalm : Op.Calm op → Holds (sound (Spares (host, op))) (fun _ => Sound) (program (host, op)) j tr :=
    fun hop => hend (holds_calm_end (calm_program hop) (goesOn_refl h))
  cases op with
  | run request plan resume given =>
    exact hend (holds_seq (holds_storePlan (goesOn_refl h))
      (fun _ _ _ h => holds_silent (holds_continueRun h)) fun _ _ _ h => h)
  | storePlan => exact hend (holds_storePlan (goesOn_refl h))
  | continueRun => exact hend (holds_silent (holds_continueRun (goesOn_refl h)))
  | executeIncremental => exact hend (holds_silent (holds_executeIncremental (goesOn_refl h)))
  | _ => exact hcalm trivial

/-! ### Runs -/

/-- The step does not let a receipt answer a read that has no row. -/
def Spared (s : Session) : Happening → Prop
  | .step answer =>
    match s.running with
    | some ((host, .executeIncremental call), .ask .revision _) =>
      ¬ Served host call (answer .revision) s.store
    | _ => True
  | _ => True

instance (s : Session) (e : Happening) : Decidable (Spared s e) := by
  unfold Spared
  split
  · split
    · exact @instDecidableNot _ (decidableServed _ _ _ _)
    · infer_instance
  · infer_instance

abbrev Receipted (s : Session) : Prop := Guarded (fun call => sound (Spares call)) Sound s

theorem receipted_next {s : Session} (h : Receipted s) (e : Happening) (hspared : Spared s e) :
    Receipted (next program cancel s e) := by
  refine guarded_next h e (fun call _ _ hs => holds_program call hs) ?_ (fun _ _ _ _ _ hs => hs)
    (fun x _ j => others_cancel x j)
    fun x j _ hs => sound_mono hs (unmoved_of_others (others_cancel x j)) fun _ he => he
  rintro answer rfl ⟨host, op⟩ i k hrunning
  cases op with
  | executeIncremental call =>
    cases i with
    | revision =>
      unfold Spared at hspared
      rw [hrunning] at hspared
      exact hspared
    | _ => exact trivial
  | _ => exact trivial

theorem receipted_arrived {happenings : List Happening}
    (h : Along (next program cancel) Spared ({ store := {} } : Session) happenings) :
    Receipted (arrived happenings) := by
  have hempty : Receipted ({ store := {} } : Session) :=
    ⟨List.nodup_nil, fun _ h => absurd h List.not_mem_nil, fun _ h => absurd h List.not_mem_nil⟩
  exact Smara.Lib.Machine.inv_run (I := Receipted) (fun _ e h hspared => receipted_next h e hspared)
    hempty h

theorem sound_of_receipted {s : Session} (h : Receipted s) : Sound s.store s.trace := by
  obtain ⟨j, running, tr⟩ := s
  cases running with
  | none => exact h
  | some call => exact inv_of_holds h

/-! ### Replays -/

/-- Nobody else writes, and every reading of the clock leaves wall time. -/
def timely (host : Host) : Contract Journal Answer where
  rely := Eq
  admits
    | j, .clock, current => max 0 (j.state.pausedAt.getD current - j.state.startedWall.getD current -
        j.state.pausedSeconds) < (j.state.budget.getD host.budget).wallSeconds
    | _, _, _ => True
  inv _ _ := True
  refl _ := rfl
  trans := Eq.trans
  stable _ _ := trivial

def Answers (id : String) (tr : List (Exchange Answer)) (r : Except Err ToolResult)
    (tr' : List (Exchange Answer)) : Prop :=
  (∃ result, r = .ok result ∧ result.callId = id) ∧ executions tr' = executions tr

theorem answers_of_quiet {p : Engine ToolResult} {id : String} (hp : Quiet Unmoved Talk p)
    (hyields : Yields (fun r => ∃ result, r = .ok result ∧ result.callId = id) p)
    (htr : executions tr' = executions tr) :
    Holds (timely host) (fun r _ tr'' => Answers id tr r tr'') p j' tr' := by
  have hrely : ∀ {j j' : Journal}, (timely host).rely j j' → Unmoved j j' := by
    rintro j _ rfl
    exact unmoved_refl j
  have hquiet : Holds (timely host) (fun _ j'' tr'' => Unmoved j' j'' ∧ Extends Talk tr' tr'') p j' tr' :=
    holds_of_quiet hp unmoved_refl unmoved_trans hrely fun _ _ => trivial
  exact holds_mono (holds_yields hyields hquiet)
    fun _ _ _ hq => ⟨hq.2, (executions_of_extends hq.1.2).trans htr⟩

theorem withText_asdict (id : String) (r : ToolResult) :
    withText "call_id" id r.asdict = { r with callId := id }.asdict := by
  simp [withText, ToolResult.asdict, upsert, updateWhere]

theorem yields_event {type : String} {payload : Dict} :
    Yields (fun r => r.isOk) (event type payload) :=
  yields_request fun _ => ⟨fun _ _ => nofun, rfl⟩

theorem reusedResult_callId (count : ℕ) (r : ToolResult) : (reusedResult count r).callId = r.callId := by
  unfold reusedResult
  split_ifs <;> rfl

theorem answers_reuse {call : ToolCall} {fp revision : String} {receipt : Dict}
    (hreceipt : ∃ result aid, receipt = receiptOf result aid)
    (hrow : (j'.call call.callId).isSome) (htr : executions tr' = executions tr) :
    Holds (timely host) (fun r _ tr'' => Answers call.callId tr r tr'')
      (reuse host call fp revision receipt) j' tr' := by
  obtain ⟨result, aid, rfl⟩ := hreceipt
  obtain ⟨row, hcall⟩ := Option.isSome_iff_exists.mp hrow
  have hstored : ∀ receipt', Holds (timely host) (fun r j'' tr'' => r = .ok () ∧ tr'' = tr')
      (storeReused host call revision receipt') j' tr' := by
    intro receipt'
    refine holds_get trivial fun j₁ hj => ?_
    obtain rfl : j' = j₁ := hj
    rw [hcall]
    exact ⟨trivial, fun _ _ => ⟨rfl, rfl⟩⟩
  refine holds_seq (hstored _) (fun _ j₁ tr₁ hq => ?_) fun e _ _ hq => nomatch hq.1
  rw [hq.2]
  refine answers_of_quiet (quiet_bind (quiet_get _) fun _ => quiet_bind (calm_set fun _ => rfl) fun _ =>
    quiet_bind (quiet_reused unmoved_events) fun _ => quiet_reusedAnswer) ?_ htr
  refine yields_get fun counts => yields_put ?_
  have hreused : ∀ count, Yields (fun r => r.isOk) (reused call fp count (receiptOf result aid)) := by
    intro count
    refine yields_bind yields_event (fun _ _ => yields_ite (fun _ => yields_event) fun _ => rfl) ?_
    exact fun _ h => nomatch h
  refine yields_bind (hreused _) (fun _ _ => ?_) fun _ h => nomatch h
  unfold reusedAnswer
  rw [withoutArtifact_receiptOf, withText_asdict, ToolResult.ofDict_asdict]
  exact ⟨_, rfl, reusedResult_callId _ _⟩

/-- The journal lets an execution begin, as far as it is not a matter of time. -/
structure Open (j : Journal) : Prop where
  cancelled : j.state.cancelled = false
  paused : j.state.pausedAt = none

theorem timely_admitted {next : Unit → Engine ToolResult}
    {R : Except Err ToolResult → Journal → List (Exchange Answer) → Prop} (hopen : Open j')
    (hnext : ∀ tr'', executions tr'' = executions tr' → Holds (timely host) R (next ()) j' tr'') :
    Holds (timely host) R (admitted host >>= next) j' tr' := by
  refine holds_bind ?_
  refine holds_get trivial fun j₁ hj => ?_
  obtain rfl : j' = j₁ := hj
  refine holds_require trivial (fun _ => ?_) fun hno => absurd hopen.cancelled hno
  refine holds_get trivial fun j₁ hj => ?_
  obtain rfl : j' = j₁ := hj
  refine holds_require trivial (fun _ => ?_) fun hno => absurd hopen.paused hno
  refine holds_get trivial fun j₁ hj => ?_
  obtain rfl : j' = j₁ := hj
  have helapsed : Holds (timely host) (fun r j'' tr'' => j' = j'' ∧ executions tr'' = executions tr' ∧
      ∃ elapsed, r = .ok elapsed ∧ elapsed < (j'.state.budget.getD host.budget).wallSeconds)
      elapsedWall j' tr' := by
    refine holds_request trivial (fun _ _ => trivial) fun j₁ hj current hcurrent => ?_
    obtain rfl : j' = j₁ := hj
    refine holds_get trivial fun j₁ hj => ?_
    obtain rfl : j' = j₁ := hj
    refine holds_pure trivial fun j₁ hj => ?_
    obtain rfl : j' = j₁ := hj
    exact ⟨rfl, (executions_append _ _).trans (List.append_nil _), _, rfl, hcurrent⟩
  refine holds_seq helapsed (fun elapsed j₁ tr₁ hq => ?_) fun e _ _ hq => ?_
  · obtain ⟨rfl, htr, elapsed', hequal, hlt⟩ := hq
    obtain rfl := Except.ok.inj hequal
    unfold require
    rw [if_pos hlt]
    refine ⟨trivial, fun j₁ hj => ?_⟩
    obtain rfl : j' = j₁ := hj
    exact hnext tr₁ htr
  · obtain ⟨-, -, elapsed, hequal, -⟩ := hq
    cases hequal

theorem timely_revision {next : String → Engine ToolResult}
    {R : Except Err ToolResult → Journal → List (Exchange Answer) → Prop}
    (hnext : ∀ revision tr'', executions tr'' = executions tr' →
      Holds (timely host) R (next revision) j' tr'') :
    Holds (timely host) R (currentWorkspaceRevision >>= next) j' tr' := by
  refine holds_bind (holds_get trivial fun j₁ hj => ?_)
  obtain rfl : j' = j₁ := hj
  split_ifs
  · refine holds_pure trivial fun j₁ hj => ?_
    obtain rfl : j' = j₁ := hj
    exact hnext _ _ rfl
  · refine ⟨trivial, fun j₁ hj => ⟨trivial, fun revision _ => ⟨trivial, fun j₂ hj₂ => ?_⟩⟩⟩
    obtain rfl : j' = j₁ := hj
    obtain rfl : j' = j₂ := hj₂
    exact hnext _ _ ((executions_append _ _).trans (List.append_nil _))

/-- **A call that is completed is answered from its receipt**, or from that of another read. -/
theorem answers_executeIncremental {call : ToolCall} {row : CallRow} (hs : Sound j tr)
    (hrow : row ∈ j.calls) (hcompleted : row.state = .completed) (hid : call.callId = row.callId)
    (hopen : Open j) :
    Holds (timely host) (fun r _ tr' => Answers call.callId tr r tr') (executeIncremental host call) j tr := by
  have hrequire : Holds (timely host) (fun r j' tr' => r = .ok () ∧ Unmoved j j' ∧ Open j' ∧ tr' = tr)
      (requireRevision call) j tr := by
    unfold requireRevision
    split_ifs
    · refine holds_pure trivial fun j₁ hj => ?_
      obtain rfl : j = j₁ := hj
      exact ⟨rfl, unmoved_refl j, hopen, rfl⟩
    · refine ⟨trivial, fun j₁ hj => ⟨fun j₂ hok => ⟨trivial, fun j₃ hj₃ => ?_⟩, fun _ => nofun⟩⟩
      obtain rfl : j = j₁ := hj
      obtain rfl := Except.ok.inj hok
      obtain rfl : _ = j₃ := hj₃
      exact ⟨rfl, ⟨rfl, rfl, fun _ => rfl⟩, ⟨hopen.cancelled, hopen.paused⟩, rfl⟩
  refine holds_seq hrequire (fun _ j₁ tr₁ hq => ?_) fun _ _ _ hq => nomatch hq.1
  obtain ⟨-, hmoved, hopen₁, rfl⟩ := hq
  have hs₁ : Sound j₁ tr₁ := sound_mono hs hmoved fun _ he => he
  have hrow₁ : j₁.call call.callId = some row := by
    rw [hid]
    exact lookup_key hs₁.keyed (hmoved.calls.symm ▸ hrow)
  refine timely_admitted hopen₁ fun tr₂ htr₂ => ?_
  refine holds_get trivial fun j₂ hj => ?_
  obtain rfl : j₁ = j₂ := hj
  refine timely_revision fun revision tr₃ htr₃ => ?_
  refine holds_get trivial fun j₂ hj => ?_
  obtain rfl : j₁ = j₂ := hj
  have htr : executions tr₃ = executions tr₁ := htr₃.trans htr₂
  split
  · next fp receipt hcached =>
    refine answers_reuse ?_ (by rw [hrow₁]; rfl) htr
    split_ifs at hcached
    exact hs₁.cache _ (mem_of_lookup hcached)
  · refine holds_get trivial fun j₂ hj => ?_
    obtain rfl : j₁ = j₂ := hj
    rw [hrow₁]
    dsimp only
    rw [if_pos hcompleted]
    obtain ⟨d, hd, result, aid, -, -, -, -, hdecodes, hresult, -⟩ :=
      hs₁.completed row (mem_of_lookup hrow₁) hcompleted
    refine answers_of_quiet (calm_replay _) ?_ htr
    unfold replay
    rw [show row.result = some d from hd]
    dsimp only
    rw [hdecodes]
    exact ⟨result, rfl, hresult.trans hid.symm⟩

/-- **Completed rows carry their receipts, and are answered from them.** -/
structure ReceiptsKept (happenings : List Happening) : Prop where
  completed : ∀ row ∈ (arrived happenings).store.calls, row.state = .completed →
    ∃ d ∈ row.result, ReceiptFor (arrived happenings).trace row.callId d
  stays : (arrived happenings).running = none → ∀ row ∈ (arrived happenings).store.calls,
    row.state = .completed → ∀ later, row ∈ (arrived (happenings ++ later)).store.calls ∧
      (executions (arrived (happenings ++ later)).trace).count row.callId =
        (executions (arrived happenings).trace).count row.callId
  replays : (arrived happenings).running = none → ∀ row ∈ (arrived happenings).store.calls,
    row.state = .completed → Open (arrived happenings).store →
    ∀ host call, call.callId = row.callId →
      Holds (timely host) (fun r _ tr => Answers call.callId (arrived happenings).trace r tr)
        (executeIncremental host call) (arrived happenings).store (arrived happenings).trace

theorem receipts_kept {happenings : List Happening}
    (h : Along (next program cancel) Spared ({ store := {} } : Session) happenings) :
    ReceiptsKept happenings := by
  have hs := sound_of_receipted (receipted_arrived h)
  refine ⟨hs.completed, fun hrest row hrow hcompleted later => ?_, fun hrest row hrow hcompleted hopen host
    call hid => answers_executeIncremental hs hrow hcompleted hid hopen⟩
  have hstuck := stuck_arrived hrest hrow (Or.inl hcompleted) later
  exact ⟨hstuck.here, hstuck.count⟩

/-! ### A read that is served -/

def reads (id : String) : (i : Ask) → Answer i
  | .execute _ _ => Outcome.returned { callId := id, status := "ok", text := "note" }
  | i => answers i

def read (id : String) (n : ℕ) : List Happening :=
  .start (engine, .executeIncremental
    { callId := id, name := "read_file", arguments := [("path", .str "note.txt")], workspaceId := "/work" }) ::
    List.replicate n (.step (reads id))

/-- One read, and the same read again under its id. -/
def readOnce : List Happening :=
  [.start (engine, .beginIncremental "Read the note")] ++ statements 13 ++ read "first" 40 ++
    read "first" 30

theorem receipts_kept_once : ReceiptsKept readOnce := receipts_kept (by decide)

/-- The row of the second read, under another id, has no receipt, and its replay raises. -/
theorem no_receipt_after_reuse :
    (arrived (readOnce ++ read "second" 40)).store.calls.map
        (fun row => (row.callId, row.state, row.result.isSome)) =
      [("first", .completed, true), ("second", .completed, false)] ∧
    replay none =
      raise (.typeError "the JSON object must be str, bytes or bytearray, not NoneType") :=
  ⟨by decide +kernel, rfl⟩

end Smara.Harness.Receipts
