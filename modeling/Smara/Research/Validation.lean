import Smara.Lib.Machine
import Smara.Research.Rules

/-! # What a validation was computed on

`can_finalize` relies on the last validation: it has passed, and the engine has noted its snapshot and no
other since. That says something of the session only if every change of it is noted.

* `Timely`: no call raises between a change of the session and its note.
* `Valid`: what the engine has noted, and the session as it is, are what the last validation was computed
  on.
* `validation_never_stale`: so it is in every run whose calls are timely. -/

namespace Smara.Research.Validation

open Goals.Spec (strip)
open Lib.Calls Lib.Machine Lib.Scripts Lib.Table
open Research.Graph Research.Schema Research.Session Research.Rules

/-! ### Timely calls -/

def Fresh (s : Research) : Prop := s.Passed ∧ s.validatedId ≠ none ∧ s.validatedId = s.stateId

instance (s : Research) : Decidable (Fresh s) := inferInstanceAs (Decidable (_ ∧ _))

def Relied (s : Research) : Prop := s.lastValidation = some (s.content, true)

instance (s : Research) : Decidable (Relied s) := inferInstanceAs (Decidable (_ = _))

def Failing (event : String) : Prop :=
  event ∈ ["research_fetch_failed", "research_extraction_failed", "research_extraction_unavailable"]

instance (event : String) : Decidable (Failing event) := inferInstanceAs (Decidable (_ ∈ _))

/-- The session has changed, and the event is to note it: a failure of a fresh session, a validation after
one that has been noted, or a resolution. -/
def Late (event : String) (s : Research) : Prop :=
  (Failing event ∧ Fresh s) ∨ (event = "research_validated" ∧ s.validatedId ≠ none) ∨
    event = "research_resolved"

instance (event : String) (s : Research) : Decidable (Late event s) :=
  inferInstanceAs (Decidable (_ ∨ _))

def Answered {α : Type} (a : Except Err α) : Prop := a.isOk

instance {α : Type} (a : Except Err α) : Decidable (Answered a) := inferInstanceAs (Decidable (_ = true))

/-- **No exception comes late**: in a search or an ingestion of a fresh session after its first record, or
where a change is to be noted. -/
def Prompt (s : Research) : (i : Ask) → Answer i → Prop
  | .write event, (a : Except Err Unit) => Late event s → Answered a
  | .event event, (a : Except Err Unit) => event = "research_resolved" → Answered a
  | .putState event _, (a : Except Err String) => Late event s → Answered a
  | .add changed _ _ _, (a : Except Err EvidenceRecord) => changed → Fresh s → Answered a
  | .read changed _, (a : Except Err Unit) => changed → Fresh s → Answered a
  | _, _ => True

/-- The ids of snapshots are digests: of this one, and of no other that has been put away. -/
def Digested (host : Host) (s : Research) (snap : Snapshot) : Except Err String → Prop
  | .ok id => id = host.address snap ∧ ∀ other ∈ s.artifacts, host.address other = id → other = snap
  | .error _ => True

def Digest (host : Host) (s : Research) : (i : Ask) → Answer i → Prop
  | .putState _ snap, (a : Except Err String) => Digested host s snap a
  | _, _ => True

instance decidablePrompt (s : Research) : ∀ (i : Ask) (a : Answer i), Decidable (Prompt s i a)
  | .write event, (a : Except Err Unit) => inferInstanceAs (Decidable (Late event s → Answered a))
  | .event event, (a : Except Err Unit) =>
    inferInstanceAs (Decidable (event = "research_resolved" → Answered a))
  | .putState event _, (a : Except Err String) => inferInstanceAs (Decidable (Late event s → Answered a))
  | .add changed _ _ _, (a : Except Err EvidenceRecord) =>
    inferInstanceAs (Decidable (changed → Fresh s → Answered a))
  | .read changed _, (a : Except Err Unit) => inferInstanceAs (Decidable (changed → Fresh s → Answered a))
  | .putArtifact, _ | .failure _ _, _ | .search _ _ _, _ | .fetch _, _ | .extract _ _ _ _, _ | .scan _, _
  | .provenance _, _ | .judge _ _, _ | .analyzeTabular _, _ | .score _, _ => .isTrue trivial

instance decidableDigested (host : Host) (s : Research) (snap : Snapshot) :
    ∀ a, Decidable (Digested host s snap a)
  | .ok id => inferInstanceAs (Decidable (id = host.address snap ∧
      ∀ other ∈ s.artifacts, host.address other = id → other = snap))
  | .error _ => .isTrue trivial

instance decidableDigest (host : Host) (s : Research) : ∀ (i : Ask) (a : Answer i),
    Decidable (Digest host s i a)
  | .putState _ snap, (a : Except Err String) => inferInstanceAs (Decidable (Digested host s snap a))
  | .write _, _ | .event _, _ | .add _ _ _ _, _ | .read _ _, _ | .putArtifact, _ | .failure _ _, _
  | .search _ _ _, _ | .fetch _, _ | .extract _ _ _ _, _ | .scan _, _ | .provenance _, _ | .judge _ _, _
  | .analyzeTabular _, _ | .score _, _ => .isTrue trivial

/-- **A timely call**: it does not raise after it has changed the session and before that is noted. -/
def Timely (host : Host) (s : Research) : Event → Prop
  | .call c answers => Meets Prompt (fun _ => True) answers 0 (perform host c) s
  | .reload => True

/-- The store of artifacts goes by digests. -/
def Digests (host : Host) (s : Research) : Event → Prop
  | .call c answers => Meets (Digest host) (fun _ => False) answers 0 (perform host c) s
  | .reload => True

instance decidableTimely (host : Host) (s : Research) : ∀ e, Decidable (Timely host s e)
  | .call c answers => inferInstanceAs (Decidable (Meets Prompt (fun _ => True) answers 0 (perform host c) s))
  | .reload => .isTrue trivial

instance decidableDigests (host : Host) (s : Research) : ∀ e, Decidable (Digests host s e)
  | .call c answers =>
    inferInstanceAs (Decidable (Meets (Digest host) (fun _ => False) answers 0 (perform host c) s))
  | .reload => .isTrue trivial

/-! ### The invariant -/

/-- What the engine has noted as validated is a snapshot, and the last validation was computed on it. -/
structure Noted (host : Host) (artifacts : List Snapshot) (validatedId : Option String)
    (lastValidation : Option (Content × Bool)) : Prop where
  stored : ∀ id, validatedId = some id → ∃ snap ∈ artifacts, host.address snap = id
  passed : ∀ snap ∈ artifacts, validatedId = some (host.address snap) →
    snap.validation.any Validation.passed → lastValidation = some (snap.content, true)

/-- **What `can_finalize` relies on.** -/
structure Valid (host : Host) (s : Research) : Prop where
  relied : Fresh s → Relied s
  noted : Noted host s.artifacts s.validatedId s.lastValidation

structure Unpassed (host : Host) (s : Research) : Prop where
  reset : s.validation = none
  noted : Noted host s.artifacts s.validatedId s.lastValidation

/-- New evidence comes in, and the index is still `before` or has grown. -/
structure Tracking (host : Host) (before : EvidenceIndex) (s : Research) : Prop where
  relied : Fresh s → s.index = before → Relied s
  noted : Noted host s.artifacts s.validatedId s.lastValidation
  records : before.records.length ≤ s.index.records.length
  failures : before.failures.length ≤ s.index.failures.length

variable {host : Host} {s : Research} {before : EvidenceIndex}

theorem passed_iff : s.Passed ↔ s.validation.any Validation.passed := by
  simp [Research.Passed, Option.any_eq_true]

theorem valid_of_unpassed (h : Unpassed host s) : Valid host s := by
  refine ⟨fun ⟨⟨v, hv, _⟩, _⟩ => ?_, h.noted⟩
  rw [h.reset] at hv
  cases hv

theorem noted_of_none {artifacts : List Snapshot} {last : Option (Content × Bool)} :
    Noted host artifacts none last := ⟨nofun, nofun⟩

theorem valid_of_none (h : s.validatedId = none) : Valid host s :=
  ⟨fun hfresh => absurd h hfresh.2.1, h ▸ noted_of_none⟩

theorem valid_of_tracking (h : Tracking host before s) (hsame : Fresh s → s.index = before) :
    Valid host s := ⟨fun hfresh => h.relied hfresh (hsame hfresh), h.noted⟩

theorem tracking_of_valid (h : Valid host s) : Tracking host s.index s :=
  ⟨fun hfresh _ => h.relied hfresh, h.noted, le_rfl, le_rfl⟩

theorem noted_append (h : Noted host s.artifacts s.validatedId s.lastValidation) {snap : Snapshot}
    {id : String} (hid : Digested host s snap (.ok id)) :
    Noted host (s.artifacts ++ [snap]) s.validatedId s.lastValidation := by
  obtain ⟨rfl, honly⟩ := hid
  refine ⟨fun id hid => ?_, fun other hother hid hpassed => ?_⟩
  · obtain ⟨other, hother, haddress⟩ := h.stored id hid
    exact ⟨other, List.mem_append_left _ hother, haddress⟩
  · rcases List.mem_append.mp hother with hother | hother
    · exact h.passed other hother hid hpassed
    · rw [List.mem_singleton.mp hother] at hid hpassed ⊢
      obtain ⟨known, hknown, haddress⟩ := h.stored _ hid
      have hsame := honly known hknown haddress
      rw [hsame] at hknown
      exact h.passed snap hknown hid hpassed

theorem valid_of_saved (h : Noted host s.artifacts s.validatedId s.lastValidation) (hmem : s.snapshot ∈ s.artifacts)
    (hid : s.stateId = some (host.address s.snapshot)) : Valid host s := by
  refine ⟨fun ⟨hpassed, _, hsame⟩ => ?_, h⟩
  exact h.passed s.snapshot hmem (hsame.trans hid) (passed_iff.mp hpassed)

theorem valid_reload (h : Valid host s) : Valid host (reload host s) := by
  have hblank : Valid host (blank s) := valid_of_unpassed ⟨rfl, h.noted⟩
  unfold reload load
  cases hnoted : noted host s with
  | none => exact hblank
  | some snap =>
    simp only [restore]
    cases hread : ResearchGraph.fromDict snap.nodes with
    | error e => exact hblank
    | ok g =>
      have hnodes : g.nodes = snap.nodes := nodes_of_addAll hread
      have hfound : snap ∈ s.artifacts ∧ s.stateId = some (host.address snap) := by
        unfold noted at hnoted
        cases hid : s.stateId with
        | none =>
          rw [hid] at hnoted
          cases hnoted
        | some stateId =>
          rw [hid] at hnoted
          have haddress := List.find?_some hnoted
          exact ⟨List.mem_of_find?_eq_some hnoted, by rw [of_decide_eq_true haddress]⟩
      refine ⟨fun ⟨hpassed, _, hsame⟩ => ?_, h.noted⟩
      have hlast := h.noted.passed snap hfound.1 (hsame.trans hfound.2) (passed_iff.mp hpassed)
      refine hlast.trans (congrArg (fun c => some (c, true)) ?_)
      unfold Snapshot.content Research.content Research.snapshot ResearchGraph.toDict Snapshot.content
      rw [hnodes]

/-! ### Snapshots -/

abbrev Admitted (host : Host) : Research → (i : Ask) → Answer i → Prop :=
  fun s i a => Digest host s i a ∧ Prompt s i a

abbrev Sure : Research → Prop := fun _ => True

section Save
variable {event : String}

theorem ends_engineSet {α : Type} {f : Research → Research} {rest : Unit → Program α}
    {Q : Except Err α → Research → Prop} (h : Ends (Admitted host) Sure Q (rest ()) (f s))
    (he : ¬ Late event s → ∀ e, Q (.error e) s) :
    Ends (Admitted host) Sure Q (engineSet event f >>= rest) s := by
  have hset : Ends (Admitted host) Sure (fun r s' => match r with
      | .ok _ => s' = f s
      | .error _ => s' = s ∧ ¬ Late event s) (engineSet event f) s := by
    refine ends_request fun a ha => ends_settled (fun _ _ => ends_last rfl) fun e he => ?_
    obtain rfl := he
    exact ⟨rfl, fun hl => nomatch ha.2 hl⟩
  refine ends_bind hset (fun _ s' hs' => ?_) fun e s' hs' => ?_
  · obtain rfl := hs'
    exact h
  · obtain ⟨rfl, hl⟩ := hs'
    exact he hl e

/-- **`save`**: an exception that comes before the snapshot is put away, or else what follows. -/
theorem ends_save {Q : Except Err String → Research → Prop} (hlate : ¬ Late event s → ∀ e, Q (.error e) s)
    (hnote : ∀ id, Digested host s s.snapshot (.ok id) →
      Ends (Admitted host) Sure Q (note event s.snapshot id) s) :
    Ends (Admitted host) Sure Q (save event) s := by
  refine ends_get (ends_request fun a ha => ends_settled (fun id hid => ?_) fun e he => ?_)
  · obtain rfl := hid
    exact hnote id ha.1
  · obtain rfl := he
    exact hlate (fun hl => nomatch ha.2 hl) e

theorem keeping_save_unpassed (hevent : event ≠ "research_validated") :
    Keeping (Admitted host) Sure (Unpassed host) (save event) := by
  refine fun s hs => ends_save (fun _ _ => hs) fun id hid => ends_put ?_
  have hput : Unpassed host { s with artifacts := s.artifacts ++ [s.snapshot] } :=
    ⟨hs.reset, noted_append hs.noted hid⟩
  exact keeping_bind (keeping_engineSet fun _ h => ⟨h.reset, h.noted⟩) (fun _ =>
    keeping_bind (keeping_noteRest (fun h => absurd h hevent) fun _ _ h => ⟨h.reset, noted_of_none⟩)
      fun _ => keeping_pure id) _ hput

/-- **A change that is noted while the validation stays.** -/
theorem ends_save_valid (hvalidated : event ≠ "research_validated") (hplanned : event ≠ "research_planned")
    (hs : Noted host s.artifacts s.validatedId s.lastValidation)
    (hlate : ¬ Late event s → Fresh s → Relied s) :
    Ends (Admitted host) Sure (fun _ => Valid host) (save event) s := by
  refine ends_save (fun hl _ => ⟨hlate hl, hs⟩) fun id hid => ends_put (ends_engineSet ?_ fun hl _ => ?_)
  · have hnoted := noted_append hs hid
    have hsaved : Valid host { s with
        artifacts := s.artifacts ++ [s.snapshot], stateId := some id } := by
      refine valid_of_saved hnoted (List.mem_append_right _ (List.mem_singleton_self _)) ?_
      rw [hid.1]
      rfl
    exact keeping_bind (keeping_noteRest (fun h => absurd h hvalidated) fun h => absurd h hplanned)
      (fun _ => keeping_pure id) _ hsaved
  · exact ⟨hlate hl, noted_append hs hid⟩

theorem valid_of_not_late (h : ¬ Late "research_validated" s) : Valid host s :=
  valid_of_none (of_not_not fun hnone => h (Or.inr (Or.inl ⟨rfl, hnone⟩)))

/-- **A validation that is noted.** -/
theorem ends_save_validated {v : Validation} (hv : s.validation = some v)
    (hlast : s.lastValidation = some (s.content, v.passed)) :
    Ends (Admitted host) Sure (fun _ => Valid host) (save "research_validated") s := by
  refine ends_save (fun hl _ => valid_of_not_late hl) fun id hid => ends_put ?_
  refine ends_engineSet ?_ fun hl _ => valid_of_not_late hl
  refine ends_bind (Q := fun _ => Valid host) ?_ (fun _ _ h => ends_pure h) fun _ _ h => h
  refine ends_engineSet (ends_engineSet ?_ fun hl _ => valid_of_not_late hl)
    fun hl _ => valid_of_not_late hl
  unfold noteValidated
  rw [if_pos rfl]
  refine ends_engineSet ?_ fun hl _ => valid_of_not_late hl
  refine keeping_engineEvent (I := Valid host) _ _ ⟨fun hfresh => ?_, fun id' hid' => ?_, fun snap hsnap hid' hp => ?_⟩
  · obtain ⟨v', hv', hpassed⟩ := hfresh.1
    obtain rfl : v = v' := Option.some.inj (hv.symm.trans hv')
    exact hlast.trans (by rw [hpassed]; rfl)
  · refine ⟨s.snapshot, List.mem_append_right _ (List.mem_singleton_self _), ?_⟩
    rw [← Option.some.inj hid', hid.1]
  · have hsame : snap = s.snapshot := by
      rcases List.mem_append.mp hsnap with hsnap | hsnap
      · exact hid.2 snap hsnap (Option.some.inj hid').symm
      · exact List.mem_singleton.mp hsnap
    rw [hsame] at hp ⊢
    have hpassed : v.passed = true := by
      unfold Research.snapshot at hp
      rw [hv] at hp
      exact hp
    exact hlast.trans (by rw [hpassed]; rfl)

theorem ends_reset {α : Type} {rest : Unit → Program α}
    (hs : Noted host s.artifacts s.validatedId s.lastValidation)
    (hrest : Keeping (Admitted host) Sure (Unpassed host) (rest ())) :
    Ends (Admitted host) Sure (fun _ => Valid host) (resetValidation >>= rest) s :=
  ends_put (ends_mono (hrest _ ⟨rfl, hs⟩) fun _ _ h => valid_of_unpassed h)

theorem keeping_saved {α : Type} (hevent : event ≠ "research_validated") (a : α) :
    Keeping (Admitted host) Sure (Unpassed host) (do
      let _ ← save event
      return a) := keeping_bind (keeping_save_unpassed hevent) fun _ => keeping_pure a

end Save

/-! ### Evidence -/

section Evidence
variable {α β : Type} {kind : EvidenceKind} {url text error : String}

/-- The script goes on with the evidence, and leaves a valid session if it raises. -/
def Tracked (host : Host) (before : EvidenceIndex) (p : Program α) : Prop :=
  ∀ s, Tracking host before s → Ends (Admitted host) Sure (fun r s' => match r with
    | .ok _ => Tracking host before s'
    | .error _ => Valid host s') p s

theorem tracked_pure (a : α) : Tracked host before (pure a) := fun _ hs => ends_pure hs

theorem tracked_bind {p : Program α} {next : α → Program β} (hp : Tracked host before p)
    (hnext : ∀ a, Tracked host before (next a)) : Tracked host before (p >>= next) :=
  fun s hs => ends_bind (hp s hs) (fun a s' hs' => hnext a s' hs') fun _ _ hs' => hs'

theorem ends_tracked {p : Program α} {next : α → Program β} (hp : Tracked host s.index p)
    (hs : Valid host s) (hnext : ∀ a s', Tracking host s.index s' →
      Ends (Admitted host) Sure (fun _ => Valid host) (next a) s') :
    Ends (Admitted host) Sure (fun _ => Valid host) (p >>= next) s :=
  ends_bind (hp s (tracking_of_valid hs)) hnext fun _ _ h => h

theorem tracked_addEvidence : Tracked host before (addEvidence before kind url text) := by
  refine fun s hs => ends_get (ends_request fun a ha => ends_settled (fun record _ => ?_) fun e he => ?_)
  · cases lookup EvidenceRecord.id record.id s.index.records with
    | some known => exact ends_pure hs
    | none =>
      have hmore : before.records.length < (s.index.records ++ [record]).length := by
        rw [List.length_append, List.length_singleton]
        exact Nat.lt_succ_of_le hs.records
      refine ends_put (ends_pure ⟨fun _ hsame => ?_, hs.noted, hmore.le, hs.failures⟩)
      rw [← hsame] at hmore
      exact absurd hmore (lt_irrefl _)
  · obtain rfl := he
    refine valid_of_tracking hs fun hfresh => of_not_not fun hchanged => ?_
    exact nomatch ha.2 (decide_eq_true hchanged) hfresh

theorem tracked_addHits (hits : List Hit) : Tracked host before (addHits before hits) := by
  induction hits with
  | nil => exact tracked_pure []
  | cons hit hits ih =>
    exact tracked_bind tracked_addEvidence fun _ => tracked_bind ih fun _ => tracked_pure _

theorem tracked_addPages {path : String} (pages : List (ℕ × String)) :
    Tracked host before (addPages before path pages) := by
  induction pages with
  | nil => exact tracked_pure []
  | cons page pages ih =>
    exact tracked_bind tracked_addEvidence fun _ => tracked_bind ih fun _ => tracked_pure _

theorem tracked_addFiles (files : List PdfFile) : Tracked host before (addFiles before files) := by
  induction files with
  | nil => exact tracked_pure []
  | cons file files ih =>
    refine fun s hs => ends_get (ends_request fun a ha => ends_settled (fun _ _ => ?_) fun e he => ?_)
    · exact tracked_bind (tracked_addPages file.pages) (fun _ => tracked_bind ih fun _ => tracked_pure _) s hs
    · obtain rfl := he
      refine valid_of_tracking hs fun hfresh => of_not_not fun hchanged => ?_
      exact nomatch ha.2 (decide_eq_true hchanged) hfresh

theorem ends_recordFailure {rest : Unit → Program α} {Q : Except Err α → Research → Prop}
    (h : ∀ failure, Ends (Admitted host) Sure Q (rest ()) { s with
      index := { s.index with failures := s.index.failures ++ [failure] } })
    (he : ∀ e, Q (.error e) s) :
    Ends (Admitted host) Sure Q (recordFailure url error >>= rest) s := by
  have hrecord : Ends (Admitted host) Sure (fun r s' => match r with
      | .ok _ => ∃ failure, s' = { s with
          index := { s.index with failures := s.index.failures ++ [failure] } }
      | .error _ => s' = s) (recordFailure url error) s :=
    ends_request fun a _ => ends_settled (fun failure _ => ends_last ⟨failure, rfl⟩) fun _ _ => rfl
  refine ends_bind hrecord (fun _ s' hs' => ?_) fun e s' hs' => ?_
  · obtain ⟨failure, rfl⟩ := hs'
    exact h failure
  · obtain rfl := hs'
    exact he e

theorem ends_failed {event : String} (hs : Valid host s) (hfailing : Failing event) (a : α) :
    Ends (Admitted host) Sure (fun _ => Valid host) (do
      recordFailure url error
      let _ ← save event
      return a) s := by
  have hevent : event ≠ "research_validated" ∧ event ≠ "research_planned" := by
    unfold Failing at hfailing
    simp only [List.mem_cons, List.not_mem_nil, or_false] at hfailing
    rcases hfailing with rfl | rfl | rfl <;> decide
  refine ends_recordFailure (fun failure => ?_) fun _ => hs
  refine ends_bind (ends_save_valid hevent.1 hevent.2 hs.noted fun hl hfresh => ?_)
    (fun _ _ h => ends_pure h) fun _ _ h => h
  exact absurd (Or.inl ⟨hfailing, hfresh⟩) hl

end Evidence

/-! ### The calls -/

section Calls

theorem valid_plan {question : String} {items : List Item} {replacePlan : Bool} :
    Keeping (Admitted host) Sure (Valid host) (plan host question items replacePlan) := by
  refine keeping_bind keeping_requireState fun _ => keeping_read fun s hs => ?_
  cases candidate host.policy.maxNodes replacePlan (planned (strip question) items) s.graph with
  | error e => exact keeping_raise e
  | ok r =>
    refine fun s' hs' => ends_put ?_
    exact ends_mono (keeping_bind (keeping_save_unpassed (by decide)) (fun _ => keeping_get _) _
      ⟨rfl, hs'.noted⟩) fun _ _ h => valid_of_unpassed h

theorem valid_search {nodeId query : String} {maxResults : ℕ} {includeDomains : List String} :
    Keeping (Admitted host) Sure (Valid host) (search host nodeId query maxResults includeDomains) := by
  refine keeping_bind (keeping_readyNode nodeId) fun _ => keeping_bind (keeping_settled _) fun _ =>
    keeping_bind (keeping_request _) fun answered => keeping_bind (keeping_settled answered) fun hits => ?_
  exact fun s hs => ends_get (ends_tracked (tracked_addHits hits) hs fun records s' hs' =>
    ends_put (ends_reset hs'.noted (keeping_saved (by decide) records)))

theorem valid_refetch {url : String} {existing : EvidenceRecord} :
    Keeping (Admitted host) Sure (Valid host) (refetch host url existing) := by
  refine keeping_ite (fun _ => fun s hs => ends_reset hs.noted ?_) fun _ => keeping_pure _
  refine keeping_bind (keeping_get _) fun _ => keeping_ite (fun _ => keeping_saved (by decide) _) fun _ => ?_
  refine fun s' hs' => ends_recordFailure (fun failure => ?_) fun _ => hs'
  exact keeping_saved (by decide) _ _ ⟨hs'.reset, hs'.noted⟩

theorem valid_fetch {nodeId url : String} :
    Keeping (Admitted host) Sure (Valid host) (fetch host nodeId url) := by
  have hfailed : ∀ error : String, Keeping (Admitted host) Sure (Valid host) (fetchFailed url error) :=
    fun error s hs => ends_failed hs (by decide) _
  refine keeping_bind (keeping_readyNode nodeId) fun _ s hs => ends_get ?_
  cases s.index.records.find? fun r =>
    r.kind.Fetched ∧ rstripSlash r.canonicalUrl = rstripSlash url with
  | some existing => exact valid_refetch s hs
  | none =>
    refine ends_request fun fetched _ => ?_
    cases fetched with
    | error e => exact hfailed _ s hs
    | ok source =>
      simp only
      cases host.restricted source.excerpt with
      | some problem => exact hfailed _ s hs
      | none =>
        exact ends_tracked tracked_addEvidence hs fun record s' hs' =>
          ends_reset hs'.noted (keeping_saved (by decide) _)

theorem ends_ingested {kind : EvidenceKind} {url text : String} (hs : Tracking host before s) :
    Ends (Admitted host) Sure (fun _ => Valid host) (ingested before kind url text) s :=
  ends_bind (tracked_addEvidence s hs)
    (fun _ _ hs' => ends_reset hs'.noted (keeping_saved (by decide) _)) fun _ _ h => h

theorem valid_ingestFile {nodeId path : String} {page row column : ℤ} :
    Keeping (Admitted host) Sure (Valid host) (ingestFile nodeId path page row column) := by
  refine keeping_bind (keeping_readyNode nodeId) fun _ => keeping_bind (keeping_request _) fun extracted =>
    keeping_bind (keeping_settled extracted) fun extraction s hs => ends_get ?_
  have hs' := tracking_of_valid hs
  cases extraction with
  | unavailable => exact ends_pure hs
  | passage kind url text => exact ends_ingested hs'
  | ocr url text =>
    simp only
    split_ifs
    · refine ends_recordFailure (fun failure => ends_ingested ?_) fun _ => hs
      refine ⟨fun _ hsame => ?_, hs.noted, le_rfl, ?_⟩
      · have hlength := congrArg (fun index => index.failures.length) hsame
        simp at hlength
      · rw [List.length_append]
        exact Nat.le_add_right _ _
    · exact ends_ingested hs'
  | ocrFailed url error => exact ends_failed hs (by decide) _
  | ocrUnavailable url => exact ends_failed hs (by decide) _

theorem valid_ingestPdfCollection {nodeId root : String} :
    Keeping (Admitted host) Sure (Valid host) (ingestPdfCollection nodeId root) := by
  refine keeping_bind (keeping_knownNode nodeId) fun _ => keeping_bind (keeping_request _) fun scanned =>
    keeping_bind (keeping_settled scanned) fun files s hs => ends_get ?_
  refine ends_tracked (tracked_addFiles files) hs fun pages s' hs' => ends_reset hs'.noted ?_
  exact keeping_bind (keeping_request _) fun manifest => keeping_bind (keeping_settled manifest) fun _ =>
    keeping_saved (by decide) pages

theorem valid_analyze {evidenceIds : List String} :
    Keeping (Admitted host) Sure (Valid host) (analyze evidenceIds) := by
  refine keeping_bind keeping_requireState fun _ => keeping_bind (keeping_invalidEvidence _) fun _ =>
    keeping_bind keeping_requireState fun _ => keeping_bind (keeping_request _) fun analyzed =>
    keeping_bind (keeping_settled analyzed) fun _ => keeping_bind (keeping_request _) fun stored =>
    keeping_bind (keeping_settled stored) fun _ s hs => ends_get ?_
  refine ends_tracked tracked_addEvidence hs fun evidence s' hs' => ends_put (ends_reset hs'.noted ?_)
  exact keeping_bind (keeping_save_unpassed (by decide)) fun _ =>
    keeping_bind (keeping_put fun _ h => ⟨h.reset, h.noted⟩) fun _ => keeping_pure _

theorem valid_validate {claims : List Claim} {requireComplete : Bool} :
    Keeping (Admitted host) Sure (Valid host) (validate claims requireComplete) := by
  refine keeping_bind (keeping_get _) fun _ => keeping_bind keeping_scored fun score s hs => ends_get ?_
  refine ends_put (ends_bind (ends_save_validated rfl ?_) (fun _ _ h => ends_pure h) fun _ _ h => h)
  rfl

theorem valid_writeReport {title markdown : String} :
    Keeping (Admitted host) Sure (Valid host) (writeReport host title markdown) := by
  have hredact : ∀ sources, Keeping (Admitted host) Sure (Valid host)
      (redact host (strip markdown) sources) := fun sources =>
    keeping_ite (fun _ => keeping_bind (fun s hs => ends_save_valid (by decide) (by decide) hs.noted
      fun _ => hs.relied) fun _ => keeping_pure ()) fun _ => keeping_pure ()
  exact keeping_bind keeping_requireState fun _ => keeping_bind (keeping_get _) fun _ =>
    keeping_bind keeping_requireState fun _ => keeping_bind keeping_requireState fun _ =>
    keeping_bind keeping_requireState fun _ => keeping_bind (keeping_get _) fun sources =>
    keeping_bind keeping_requireState fun _ => keeping_bind (hredact sources) fun _ =>
    keeping_bind (keeping_request _) fun stored => keeping_bind (keeping_settled stored) fun _ =>
    keeping_bind (keeping_engineSet fun _ h => ⟨h.relied, h.noted⟩) fun _ =>
    keeping_bind (keeping_engineSet fun _ h => h) fun _ =>
    keeping_bind (keeping_engineEvent _) fun _ => keeping_pure _

/-- The statements of `conclude` about the graph do not raise, so its end is that of what follows them. -/
theorem ends_conclude {nodeId claim : String} {evidenceIds : List String} {judgments : List Judgment}
    {Q : Except Err Resolution → Research → Prop}
    (h : ∀ s' : Research, s'.artifacts = s.artifacts → s'.validatedId = s.validatedId →
      s'.lastValidation = s.lastValidation →
      ∀ f, Ends (Admitted host) Sure Q (do
        resetValidation
        let _ ← save "research_resolved"
        get f) s') :
    Ends (Admitted host) Sure Q (conclude host nodeId claim evidenceIds judgments) s := by
  refine ends_onGraph (fun g _ => ?_) fun e _ hsure => absurd trivial hsure
  unfold expand
  by_cases hc : Contradictory judgments
  · rw [if_pos hc]
    refine ends_onGraph (fun g' _ => ends_put (h _ ?_ ?_ ?_ _)) fun e _ hsure => absurd trivial hsure
    all_goals rfl
  · rw [if_neg hc]
    refine ends_put (h _ ?_ ?_ ?_ _)
    all_goals rfl

theorem valid_resolve {nodeId claim : String} {evidenceIds : List String} :
    Keeping (Admitted host) Sure (Valid host) (resolve host nodeId claim evidenceIds) := by
  refine keeping_bind (keeping_knownNode nodeId) fun _ => keeping_bind (keeping_get _) fun ids =>
    keeping_bind (keeping_judgeAll ids) fun judgments s hs => ends_conclude fun s' ha hv hl f => ?_
  refine ends_reset ?_ (keeping_bind (keeping_save_unpassed (by decide)) fun _ => keeping_get f)
  rw [ha, hv, hl]
  exact hs.noted

theorem ends_save_resolved {α : Type} {f : Research → α} :
    Ends (Admitted host) Sure (fun r _ => ∀ e, r ≠ .error e) (do
      let _ ← save "research_resolved"
      get f) s := by
  have hlate : ∀ {s'}, Late "research_resolved" s' := Or.inr (Or.inr rfl)
  refine ends_bind (Q := fun r _ => ∀ e, r ≠ .error e) ?_ (fun _ _ _ => ends_get (ends_pure nofun))
    fun e _ h => absurd rfl (h e)
  refine ends_save (fun hl => absurd hlate hl) fun id _ => ends_put (ends_engineSet ?_ fun hl => absurd hlate hl)
  refine ends_bind (Q := fun r _ => ∀ e, r ≠ .error e) ?_ (fun _ _ _ => ends_pure nofun)
    fun e _ h => absurd rfl (h e)
  refine ends_engineSet (ends_engineSet ?_ fun hl => absurd hlate hl) fun hl => absurd hlate hl
  unfold noteValidated
  rw [if_neg (by decide), if_neg (by decide)]
  refine ends_request fun a ha => ?_
  cases a with
  | ok u => exact ends_pure nofun
  | error e => exact nomatch ha.2 rfl

/-- **A resolution that raises** has left the graph, the claims and the validation alone. -/
theorem resolve_raises {nodeId claim : String} {evidenceIds : List String} :
    Ends (Admitted host) Sure (fun r s' => ∀ e, r = .error e → s'.graph = s.graph ∧
      s'.claims = s.claims ∧ s'.validation = s.validation)
      (resolve host nodeId claim evidenceIds) s := by
  have hsame : ∀ {α β : Type} {p : Program α} {next : α → Program β}
      {Q : Except Err β → Research → Prop}, Keeping (Admitted host) Sure (fun s' => s' = s) p →
      (∀ a, Ends (Admitted host) Sure Q (next a) s) → (∀ e, Q (.error e) s) →
      Ends (Admitted host) Sure Q (p >>= next) s := by
    intro α β p next Q hp hnext hraise
    refine ends_bind (hp s rfl) (fun a s' hs' => ?_) fun e s' hs' => ?_
    · obtain rfl := hs'
      exact hnext a
    · obtain rfl := hs'
      exact hraise e
  refine hsame (keeping_knownNode nodeId) (fun _ => hsame (keeping_get _) (fun ids =>
    hsame (keeping_judgeAll ids) (fun judgments => ?_) ?_) ?_) ?_
  · refine ends_conclude fun s' _ _ _ f => ends_put (ends_mono ends_save_resolved fun r _ h e he => ?_)
    exact absurd he (h e)
  all_goals exact fun e _ _ => ⟨rfl, rfl, rfl⟩

/-- What a resolution that raises leaves alone. -/
def Undone (host : Host) (s : Research) : Event → Prop
  | .call (.resolve nodeId claim evidenceIds) answers =>
    ∀ e, (exec answers 0 (resolve host nodeId claim evidenceIds) s).1 = .error e →
      let s' := step host s (.call (.resolve nodeId claim evidenceIds) answers)
      s'.graph = s.graph ∧ s'.claims = s.claims ∧ s'.validation = s.validation
  | _ => True

end Calls

/-! ### Runs -/

variable {e : Event}

theorem meets_admitted {c : Call} {answers : Answers Answer} (hdigests : Digests host s (.call c answers))
    (htimely : Timely host s (.call c answers)) :
    Meets (Admitted host) Sure answers 0 (perform host c) s := meets_and hdigests htimely

/-- **One event.** -/
theorem valid_step (hs : Valid host s) (hdigests : Digests host s e) (htimely : Timely host s e) :
    Valid host (step host s e) := by
  cases e with
  | reload => exact valid_reload hs
  | call c answers =>
    have hkeeping : Keeping (Admitted host) Sure (Valid host) (perform host c) →
        Valid host (step host s (.call c answers)) := fun hp =>
      keeping_exec hp hs (meets_admitted hdigests htimely)
    cases c with
    | plan question items replacePlan => exact hkeeping (keeping_discard valid_plan)
    | search nodeId query maxResults includeDomains => exact hkeeping (keeping_discard valid_search)
    | fetch nodeId url => exact hkeeping (keeping_discard valid_fetch)
    | ingestFile nodeId path page row column => exact hkeeping (keeping_discard valid_ingestFile)
    | ingestPdfCollection nodeId root => exact hkeeping (keeping_discard valid_ingestPdfCollection)
    | analyze evidenceIds => exact hkeeping (keeping_discard valid_analyze)
    | resolve nodeId claim evidenceIds => exact hkeeping (keeping_discard valid_resolve)
    | validate claims requireComplete => exact hkeeping (keeping_discard valid_validate)
    | writeReport title markdown => exact hkeeping (keeping_discard valid_writeReport)

theorem undone_step (hdigests : Digests host s e) (htimely : Timely host s e) : Undone host s e := by
  match e with
  | .call (.resolve nodeId claim evidenceIds) answers =>
    intro err herr
    have hmeets := meets_of_bind (meets_admitted hdigests htimely)
    change (exec answers 0 (do let _ ← resolve host nodeId claim evidenceIds) s).2.1.graph = _ ∧
      (exec answers 0 (do let _ ← resolve host nodeId claim evidenceIds) s).2.1.claims = _ ∧
      (exec answers 0 (do let _ ← resolve host nodeId claim evidenceIds) s).2.1.validation = _
    rw [exec_discard]
    exact ends_exec resolve_raises hmeets err herr
  | .call (.plan ..) _ | .call (.search ..) _ | .call (.fetch ..) _ | .call (.ingestFile ..) _
  | .call (.ingestPdfCollection ..) _ | .call (.analyze ..) _ | .call (.validate ..) _
  | .call (.writeReport ..) _ | .reload => exact trivial

theorem fresh_of_canFinalize {findings : Findings} {answer : String}
    (h : CanFinalize host findings answer s) : Fresh s := by
  unfold CanFinalize refusal at h
  cases hv : s.validation with
  | none =>
    rw [hv] at h
    simp only at h
    split_ifs at h
  | some v =>
    rw [hv] at h
    simp only at h
    split_ifs at h with _ hpassed _ _ _ hsame
    push Not at hsame
    exact ⟨⟨v, hv, by simpa using hpassed⟩, hsame.1, hsame.2⟩

/-- **A validation is never stale** in a run whose calls do not raise between a change of the session and
its note: an answer may be given only if the last validation has passed, on the session as it is. -/
theorem validation_never_stale (host : Host) (es : List Event)
    (hdigests : Along (step host) (Digests host) {} es) (htimely : Along (step host) (Timely host) {} es) :
    (∀ findings answer, CanFinalize host findings answer (run (step host) {} es) →
      (run (step host) {} es).lastValidation = some ((run (step host) {} es).content, true)) ∧
      Along (step host) (Undone host) {} es := by
  have hboth := along_and.mpr ⟨hdigests, htimely⟩
  refine ⟨fun findings answer h => ?_, hboth.mono fun s e h => undone_step h.1 h.2⟩
  have hvalid : Valid host (run (step host) {} es) :=
    inv_run (I := Valid host) (fun s e hs h => valid_step hs h.1 h.2) (valid_of_none rfl) hboth
  exact hvalid.relied (fresh_of_canFinalize h)

/-! ### Two runs -/

def sound : Findings := ⟨fun _ => true, fun _ => [], fun _ => (true, "valid")⟩

/-- Four questions of the quick lane, with their sources, are resolved and validated. -/
def validated : List Event :=
  let agreed := agreeable fun _ => .supported
  [.call (.plan "q" [⟨"a", "a", [], none⟩, ⟨"b", "b", [], none⟩, ⟨"c", "c", [], none⟩, ⟨"d", "d", [], none⟩]
      false) agreed,
    .call (.fetch "a" "http://x") agreed, .call (.fetch "a" "http://y") agreed,
    .call (.fetch "a" "http://z") agreed, .call (.resolve "a" "A" ["http://x"]) agreed,
    .call (.resolve "b" "B" ["http://x"]) agreed, .call (.resolve "c" "C" ["http://y"]) agreed,
    .call (.resolve "d" "D" ["http://z"]) agreed,
    .call (.validate [⟨"A", ["http://x"]⟩, ⟨"D", ["http://z"]⟩] true) agreed]

theorem validation_never_stale_validated :
    CanFinalize (plain quickPolicy) sound "A" (run (step (plain quickPolicy)) {} validated) ∧
      Relied (run (step (plain quickPolicy)) {} validated) := by
  have hfinal : CanFinalize (plain quickPolicy) sound "A" (run (step (plain quickPolicy)) {} validated) := by
    decide +kernel
  exact ⟨hfinal, (validation_never_stale (plain quickPolicy) validated (by decide +kernel)
    (by decide +kernel)).1 sound "A" hfinal⟩

/-- And then contradictory evidence is found for the first, for which there is no room. -/
def overturned : List Event :=
  validated ++ [.call (.resolve "a" "A" ["http://x", "http://y"])
    (agreeable fun id => if id = "http://x" then .supported else .refuted)]

/-- A resolution that raises may leave a session that has changed, and may be finalized. -/
theorem stale_after_resolution : ¬ ∀ (host : Host) (es : List Event),
    Along (step host) (Digests host) {} es →
      ∀ findings answer, CanFinalize host findings answer (run (step host) {} es) →
        (run (step host) {} es).lastValidation = some ((run (step host) {} es).content, true) := by
  intro h
  have hdigests : Along (step (plain quickPolicy)) (Digests (plain quickPolicy)) {} overturned := by
    decide +kernel
  have hfinal : CanFinalize (plain quickPolicy) sound "A" (run (step (plain quickPolicy)) {} overturned) := by
    decide +kernel
  have hstale : ¬ Relied (run (step (plain quickPolicy)) {} overturned) := by decide +kernel
  exact hstale (h _ _ hdigests _ _ hfinal)

end Smara.Research.Validation
