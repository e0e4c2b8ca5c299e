import Smara.Lib.Chronicle
import Smara.Native.Memory

/-! # The queue of the conversation memory under many workers

Any number of workers pump while turns are captured. A worker is a claim of a row: it has a lease of its own, and may
stop for good after any of its steps. The log says what has happened, in its order.

* `Event`, `step`: the statements of `capture` and `pump` that are atomic.
* `law`: what may come after what.
* `outbox`: every run is lawful, and each row is as the log says. -/

namespace Smara.Native.Outbox

open Lib.Chronicle Lib.Machine Lib.Table Native.Memory

/-! ### The system -/

/-- A worker has taken its row, may make the call, waits for the reply, has it, or has recorded it. -/
inductive Phase
  | claimed
  | ready
  | called
  | settled (o : Outcome)
  | finished
  deriving DecidableEq

/-- A worker, with the row as it has read it, and the key and the dataset that it has started with. -/
structure Worker (η : Type) where
  row : Row η
  key : String
  dataset : η
  now : Time
  phase : Phase := .claimed

/-- What has happened. A worker is named by its lease. -/
inductive Entry (η : Type)
  | inserted (id : η) (thread turn payload key : String)
  | claimed (lease : ℕ) (id : η)
  | added (lease : ℕ) (id idempotencyKey : η) (payload key : String)
  | recorded (lease : ℕ) (id : η) (state : State) (failed : Bool)
  deriving DecidableEq

structure System (η : Type) where
  writes : List (Row η) := []
  workers : List (Worker η) := []
  log : List (Entry η) := []

inductive Event (η : Type)
  /-- `count` is the number of open rows that the capture has read. -/
  | capture (s : Settings) (key : Option String) (cancelled : List (String × String)) (ticket : Option (Ticket η))
      (response : Response) (providerSecret : String) (count : ℕ) (time : Time)
  /-- A worker starts and claims a row. -/
  | claim (s : Settings) (key : Option String) (now : Time)
  /-- It looks at the settings again. -/
  | check (lease : ℕ) (stopped : Bool) (s : Settings) (key : Option String)
  | call (lease : ℕ)
  | reply (lease : ℕ) (r : Reply) (closed : Bool)
  | finish (lease : ℕ)

section Step
variable {η : Type} [DecidableEq η] (host : Host η)

def setPhase (lease : ℕ) (w : Worker η) (phase : Phase) (sys : System η) : System η :=
  { sys with workers := sys.workers.set lease { w with phase } }

def captureStep (b : Option (Binding η)) (cancelled : List (String × String)) (ticket : Option (Ticket η))
    (response : Response) (providerSecret : String) (count : ℕ) (time : Time) (sys : System η) : System η :=
  match captured host b cancelled ticket response providerSecret with
  | none => sys
  | some (t, payload) =>
    if 500 ≤ count then sys
    else
      let id := host.identity t.dataset t.thread t.turn
      let key := (b.map Binding.key).getD ""
      { sys with
        writes := insertWrite id t.dataset (stored host payload) time sys.writes
        log := sys.log ++ if ∃ r ∈ sys.writes, r.id = id then [] else [.inserted id t.thread t.turn payload key] }

def claimStep (b : Option (Binding η)) (now : Time) (sys : System η) : System η :=
  match b with
  | none => sys
  | some b =>
    match nextRow b.dataset now sys.writes with
    | none => sys
    | some row =>
      let lease := sys.workers.length
      { sys with
        writes := leaseRow row.id lease now sys.writes
        workers := sys.workers ++ [⟨row, b.key, b.dataset, now, .claimed⟩]
        log := sys.log ++ [.claimed lease row.id] }

/-- The early return still writes the row back as it was. -/
def checkStep (lease : ℕ) (stopped : Bool) (b : Option (Binding η)) (w : Worker η) (sys : System η) : System η :=
  if stopped = true ∨ b.map Binding.dataset ≠ some w.dataset then
    setPhase lease w (.settled w.row.outcome) sys
  else setPhase lease w .ready sys

def callStep (lease : ℕ) (w : Worker η) (sys : System η) : System η :=
  let sys := setPhase lease w .called sys
  if w.row.state = .pending then
    { sys with log := sys.log ++ [.added lease w.row.id w.row.id (opened host w.row.payload) w.key] }
  else sys

def finishStep (lease : ℕ) (w : Worker η) (o : Outcome) (sys : System η) : System η :=
  let entries : List (Entry η) :=
    if ∃ r ∈ sys.writes, r.id = w.row.id ∧ r.lease = some lease then
      [.recorded lease w.row.id o.state (w.row.attempts < o.attempts)]
    else []
  { setPhase lease w .finished sys with
    writes := recordRow w.row.id lease w.now o sys.writes
    log := sys.log ++ entries }

def step (sys : System η) : Event η → System η
  | .capture s key cancelled ticket response providerSecret count time =>
    captureStep host (binding host s key) cancelled ticket response providerSecret count time sys
  | .claim s key now => claimStep (binding host s key) now sys
  | .check lease stopped s key =>
    match sys.workers[lease]? with
    | some w => if w.phase = .claimed then checkStep lease stopped (binding host s key) w sys else sys
    | none => sys
  | .call lease =>
    match sys.workers[lease]? with
    | some w => if w.phase = .ready then callStep host lease w sys else sys
    | none => sys
  | .reply lease r closed =>
    match sys.workers[lease]? with
    | some w =>
      -- the client and the payload may raise before the call
      if w.phase = .called ∨ w.phase = .ready ∧ r = .raised then
        setPhase lease w (.settled (settle w.row w.now r closed)) sys
      else sys
    | none => sys
  | .finish lease =>
    match sys.workers[lease]? with
    | some w =>
      match w.phase with
      | .settled o => finishStep lease w o sys
      | _ => sys
    | none => sys

end Step

/-! ### The law -/

section Law
variable {η : Type} [DecidableEq η]

/-- The state that was recorded last. -/
def stateOf (id : η) (log : List (Entry η)) : State :=
  log.foldl (fun s e =>
    match e with
    | .recorded _ id' state _ => if id' = id then state else s
    | _ => s) .pending

/-- The number of failed calls that were recorded. -/
def failures (id : η) (log : List (Entry η)) : ℕ :=
  log.countP fun e =>
    match e with
    | .recorded _ id' _ failed => id' = id ∧ failed = true
    | _ => false

/-- The moves of a row, and recording without one. -/
def Moves : State → State → Prop
  | .pending, s => s = .pending ∨ s = .submitted ∨ s = .failed
  | .submitted, s => s = .submitted ∨ s = .succeeded ∨ s = .failed
  | _, _ => False

/-- What may come after what: no second row for a turn; claims of open rows alone, with fewer than three failed calls;
a call carries the id of the row, its payload and its key, and its worker has claimed the row before it was submitted;
and the moves. -/
def law (pre : List (Entry η)) : Entry η → Prop
  | .inserted id _ _ _ _ => ∀ thread turn payload key, .inserted id thread turn payload key ∉ pre
  | .claimed _ id => (∃ thread turn payload key, .inserted id thread turn payload key ∈ pre) ∧
      (stateOf id pre).isOpen = true ∧ failures id pre < 3
  | .added lease id idempotencyKey payload key => idempotencyKey = id ∧
      (∃ thread turn, .inserted id thread turn payload key ∈ pre) ∧ .claimed lease id ∈ pre ∧
        ∀ a b, pre = a ++ .claimed lease id :: b → stateOf id a = .pending
  | .recorded _ id state _ => Moves (stateOf id pre) state

end Law

/-! ### Logs -/

theorem split_snoc {η : Type} {log : List (Entry η)} {e e' : Entry η} {a b : List (Entry η)} (h : log ++ [e] = a ++ e' :: b) :
    (a = log ∧ e' = e) ∨ ∃ b', log = a ++ e' :: b' := by
  induction b using List.reverseRecOn with
  | nil =>
    obtain ⟨rfl, heq⟩ := List.append_inj' h rfl
    exact Or.inl ⟨rfl, (List.cons.inj heq).1.symm⟩
  | append_singleton b e'' =>
    right
    have h' : log ++ [e] = (a ++ e' :: b) ++ [e''] := by rw [h, List.append_assoc, List.cons_append]
    exact ⟨b, (List.append_inj' h' rfl).1⟩

section Log
variable {η : Type} [DecidableEq η] {id id' : η} {log : List (Entry η)} {lease : ℕ}

theorem stateOf_snoc {e : Entry η} (h : ∀ lease state failed, e ≠ .recorded lease id state failed) :
    stateOf id (log ++ [e]) = stateOf id log ∧ failures id (log ++ [e]) = failures id log := by
  unfold stateOf failures
  rw [List.foldl_append, List.countP_append]
  cases e with
  | recorded lease id' state failed =>
    have hne : id' ≠ id := by
      rintro rfl
      exact h lease state failed rfl
    simp [hne]
  | _ => simp

theorem stateOf_recorded (id : η) (lease : ℕ) (state : State) (failed : Bool) :
    stateOf id (log ++ [.recorded lease id state failed]) = state := by
  simp [stateOf]

theorem failures_recorded (id : η) (lease : ℕ) (state : State) (failed : Bool) :
    failures id (log ++ [.recorded lease id state failed]) = failures id log + failed.toNat := by
  cases failed <;> simp [failures]

theorem stateOf_of_absent (h : ∀ lease state failed, .recorded lease id state failed ∉ log) :
    stateOf id log = .pending ∧ failures id log = 0 := by
  induction log using List.reverseRecOn with
  | nil => exact ⟨rfl, rfl⟩
  | append_singleton log e ih =>
    obtain ⟨hstate, hfailures⟩ : stateOf id (log ++ [e]) = stateOf id log ∧ failures id (log ++ [e]) = failures id log :=
      stateOf_snoc fun lease state failed heq => h lease state failed (by simp [heq])
    rw [hstate, hfailures]
    exact ih fun lease state failed hmem => h lease state failed (by simp [hmem])

end Log

section Text
variable {η : Type} {host : Host η}

/-! ### A row's text -/

theorem opened_stored (payload : String) : opened host (stored host payload) = payload := by
  unfold opened stored
  by_cases hnt : host.nt = true
  · have hpre : "dpapi:".toList <+: ("dpapi:" ++ host.protect payload).toList := by
      rw [String.toList_append]
      exact List.prefix_append _ _
    have hdrop : ("dpapi:" ++ host.protect payload).toList.drop 6 = (host.protect payload).toList := by
      rw [String.toList_append]
      rfl
    rw [if_pos hnt, if_pos hpre, hdrop, String.ofList_toList, host.unprotect_protect]
  · have hpre : ¬ "dpapi:".toList <+: ("json:" ++ payload).toList := by
      rw [String.toList_append]
      intro h
      obtain ⟨rest, hrest⟩ := h
      exact absurd (List.cons.inj hrest).1 (by decide)
    have hdrop : ("json:" ++ payload).toList.drop 5 = payload.toList := by
      rw [String.toList_append]
      rfl
    rw [if_neg hnt, if_neg hpre, hdrop, String.ofList_toList]

theorem stored_ne (payload : String) : stored host payload ≠ "" := by
  unfold stored
  intro h
  have htext := congrArg String.toList h
  split_ifs at htext
  · rw [String.toList_append] at htext
    cases htext
  · rw [String.toList_append] at htext
    cases htext

/-! ### Replies -/

/-- What a worker may write back of the row it has read. -/
structure Settles (row : Row η) (o : Outcome) : Prop where
  moves : Moves row.state o.state
  attempts : o.attempts = row.attempts ∨ o.attempts = row.attempts + 1
  bounded : o.attempts < 3 ∨ o.state = .failed

theorem settles_unavailable {row : Row η} {o : Outcome} (hattempts : o.attempts = row.attempts)
    (hmoves : Moves row.state o.state) (hopen : row.state.isOpen = true) : Settles row o.unavailable := by
  have hfailed : Moves row.state .failed := by
    cases hstate : row.state with
    | pending => exact Or.inr (Or.inr rfl)
    | submitted => exact Or.inr (Or.inr rfl)
    | succeeded =>
      rw [hstate] at hopen
      cases hopen
    | failed =>
      rw [hstate] at hopen
      cases hopen
  unfold Outcome.unavailable
  by_cases hthree : 3 ≤ o.attempts + 1
  · simp only [if_pos hthree]
    exact ⟨hfailed, Or.inr (by rw [hattempts]), Or.inr rfl⟩
  · simp only [if_neg hthree]
    exact ⟨hmoves, Or.inr (by rw [hattempts]), Or.inl (not_le.mp hthree)⟩

theorem moves_refl {s : State} (h : s.isOpen = true) : Moves s s := by
  cases s with
  | pending => exact Or.inl rfl
  | submitted => exact Or.inl rfl
  | succeeded => cases h
  | failed => cases h

theorem settles_outcome {row : Row η} (hopen : row.state.isOpen = true) (hattempts : row.attempts < 3) :
    Settles row row.outcome :=
  ⟨moves_refl hopen, Or.inl rfl, Or.inl hattempts⟩

theorem settles_settle {row : Row η} (now : Time) (reply : Reply) (closed : Bool) (hopen : row.state.isOpen = true)
    (hattempts : row.attempts < 3) : Settles row (settle row now reply closed) := by
  have hclose : ∀ o : Outcome, o.attempts = row.attempts → Moves row.state o.state →
      Settles row (if closed = true then o else o.unavailable) := by
    intro o hsame hmoves
    split_ifs
    · exact ⟨hmoves, Or.inl hsame, Or.inl (by omega)⟩
    · exact settles_unavailable hsame hmoves hopen
  unfold settle
  cases reply with
  | raised => exact settles_unavailable rfl (moves_refl hopen) hopen
  | result eventId status =>
    by_cases hpending : row.state = .pending
    · simp only [if_pos hpending]
      split_ifs
      · exact ⟨by rw [hpending]; exact Or.inr (Or.inl rfl), Or.inl rfl, Or.inl hattempts⟩
      · exact settles_unavailable rfl (by rw [hpending]; exact Or.inr (Or.inl rfl)) hopen
      · exact settles_unavailable rfl (moves_refl hopen) hopen
    · have hsubmitted : row.state = .submitted := by
        cases hstate : row.state with
        | pending => exact absurd hstate hpending
        | submitted => rfl
        | succeeded =>
          rw [hstate] at hopen
          cases hopen
        | failed =>
          rw [hstate] at hopen
          cases hopen
      simp only [if_neg hpending]
      refine hclose _ ?_ ?_
      · split_ifs
        · rfl
        · rfl
        · rfl
        · rfl
      · rw [hsubmitted]
        split_ifs
        · exact Or.inr (Or.inl rfl)
        · exact Or.inr (Or.inr rfl)
        · exact Or.inr (Or.inr rfl)
        · exact Or.inl hsubmitted

/-! ### Workers -/

section Workers
variable {sys : System η}

def SameWorkers (sys sys' : System η) : Prop :=
  ∀ (l : ℕ) (w : Worker η), sys.workers[l]? = some w → ∃ w', sys'.workers[l]? = some w' ∧ w'.row = w.row

theorem lt_of_getElem? {lease : ℕ} {w : Worker η} (hw : sys.workers[lease]? = some w) : lease < sys.workers.length :=
  (List.getElem?_eq_some_iff.mp hw).1

theorem getElem?_setPhase {lease l : ℕ} {w w' : Worker η} {phase : Phase} (hw : sys.workers[lease]? = some w)
    (hw' : (setPhase lease w phase sys).workers[l]? = some w') :
    (l = lease ∧ w' = { w with phase }) ∨ (l ≠ lease ∧ sys.workers[l]? = some w') := by
  unfold setPhase at hw'
  by_cases hl : l = lease
  · subst hl
    rw [List.getElem?_set_self (lt_of_getElem? hw)] at hw'
    exact Or.inl ⟨rfl, (Option.some.inj hw').symm⟩
  · rw [List.getElem?_set_ne (Ne.symm hl)] at hw'
    exact Or.inr ⟨hl, hw'⟩

theorem sameWorkers_setPhase {lease : ℕ} {w : Worker η} {phase : Phase} (hw : sys.workers[lease]? = some w)
    {sys' : System η} (hworkers : sys'.workers = (setPhase lease w phase sys).workers) : SameWorkers sys sys' := by
  intro l w' hw'
  rw [hworkers]
  unfold setPhase
  by_cases hl : l = lease
  · subst hl
    refine ⟨{ w with phase }, List.getElem?_set_self (lt_of_getElem? hw), ?_⟩
    rw [hw] at hw'
    cases hw'
    rfl
  · exact ⟨w', by rw [List.getElem?_set_ne (Ne.symm hl)]; exact hw', rfl⟩

end Workers

theorem binding_spec {s : Settings} {key : Option String} {b : Binding η} (h : binding host s key = some b) :
    b.dataset = host.dataset b.userId b.agent b.key := by
  unfold binding at h
  cases key with
  | none => cases h
  | some key =>
    simp only at h
    by_cases hoff : s.enabled = false ∨ s.userId = "" ∨ key = ""
    · rw [if_pos hoff] at h
      cases h
    · rw [if_neg hoff] at h
      cases h
      rfl

end Text

/-! ### The invariant -/

section Inv
variable {η : Type} [DecidableEq η] (host : Host η)

structure RowInv (sys : System η) (r : Row η) : Prop where
  state : r.state = stateOf r.id sys.log
  attempts : r.attempts = failures r.id sys.log
  bounded : r.attempts < 3 ∨ r.state = .failed
  origin : ∃ thread turn payload key user agent, .inserted r.id thread turn payload key ∈ sys.log ∧
    r.id = host.identity r.dataset thread turn ∧ r.dataset = host.dataset user agent key ∧
      r.payload = if r.state.isOpen then stored host payload else ""
  lease : ∀ l, r.lease = some l → ∃ w, sys.workers[l]? = some w ∧ w.row.id = r.id ∧ w.row.state = r.state ∧
    w.row.attempts = r.attempts

structure WorkerInv (sys : System η) (lease : ℕ) (w : Worker η) : Prop where
  claimed : .claimed lease w.row.id ∈ sys.log
  since : ∀ a id b, sys.log = a ++ .claimed lease id :: b → stateOf id a = w.row.state
  isOpen : w.row.state.isOpen = true
  attempts : w.row.attempts < 3
  origin : ∃ thread turn payload, .inserted w.row.id thread turn payload w.key ∈ sys.log ∧
    w.row.payload = stored host payload
  outcome : ∀ o, w.phase = .settled o → Settles w.row o

structure Inv (sys : System η) : Prop where
  keyed : Keyed Row.id sys.writes
  rows : ∀ r ∈ sys.writes, RowInv host sys r
  workers : ∀ lease w, sys.workers[lease]? = some w → WorkerInv host sys lease w
  inserted : ∀ id thread turn payload key, .inserted id thread turn payload key ∈ sys.log → ∃ r ∈ sys.writes, r.id = id
  recorded : ∀ lease id state failed, .recorded lease id state failed ∈ sys.log → ∃ r ∈ sys.writes, r.id = id
  leases : ∀ lease id, .claimed lease id ∈ sys.log → lease < sys.workers.length
  lawful : Lawful law sys.log

variable {host} {sys : System η}

theorem inv_start : Inv host {} := by
  refine ⟨List.nodup_nil, fun r hr => absurd hr List.not_mem_nil, fun lease w hw => ?_, fun _ _ _ _ _ h => ?_,
    fun _ _ _ _ h => ?_, fun _ _ h => ?_, lawful_nil⟩
  · simp at hw
  · cases h
  · cases h
  · cases h

/-! ### What a step leaves -/

theorem RowInv.mono {sys' : System η} {r : Row η} (h : RowInv host sys r) (hsub : sys.log ⊆ sys'.log)
    (hsame : stateOf r.id sys'.log = stateOf r.id sys.log ∧ failures r.id sys'.log = failures r.id sys.log)
    (hworkers : SameWorkers sys sys') : RowInv host sys' r := by
  refine ⟨h.state.trans hsame.1.symm, h.attempts.trans hsame.2.symm, h.bounded, ?_, fun l hl => ?_⟩
  · obtain ⟨thread, turn, payload, key, user, agent, hmem, hrest⟩ := h.origin
    exact ⟨thread, turn, payload, key, user, agent, hsub hmem, hrest⟩
  · obtain ⟨w, hw, hid, hstate, hattempts⟩ := h.lease l hl
    obtain ⟨w', hw', hrow⟩ := hworkers l w hw
    rw [← hrow] at hid hstate hattempts
    exact ⟨w', hw', hid, hstate, hattempts⟩

theorem WorkerInv.mono {sys' : System η} {lease : ℕ} {w w' : Worker η} (h : WorkerInv host sys lease w)
    (hrow : w'.row = w.row) (hkey : w'.key = w.key)
    (hlog : sys'.log = sys.log ∨ ∃ e, (∀ id, e ≠ .claimed lease id) ∧ sys'.log = sys.log ++ [e])
    (houtcome : ∀ o, w'.phase = .settled o → Settles w.row o) : WorkerInv host sys' lease w' := by
  have hsub : sys.log ⊆ sys'.log := by
    rcases hlog with heq | ⟨e, -, heq⟩
    · rw [heq]
      exact fun x hx => hx
    · rw [heq]
      exact List.subset_append_left _ _
  obtain ⟨thread, turn, payload, hmem, hpayload⟩ := h.origin
  refine ⟨by rw [hrow]; exact hsub h.claimed, fun a id b heq => ?_, by rw [hrow]; exact h.isOpen,
    by rw [hrow]; exact h.attempts,
    ⟨thread, turn, payload, by rw [hrow, hkey]; exact hsub hmem, by rw [hrow]; exact hpayload⟩,
    fun o ho => by rw [hrow]; exact houtcome o ho⟩
  rw [hrow]
  rcases hlog with hsame | ⟨e, hne, hsnoc⟩
  · exact h.since a id b (hsame ▸ heq)
  · rcases split_snoc (hsnoc.symm.trans heq) with ⟨-, he⟩ | ⟨b', hb'⟩
    · exact absurd he.symm (hne id)
    · exact h.since a id b' hb'

theorem Inv.phase (hinv : Inv host sys) {lease : ℕ} {w : Worker η} (hw : sys.workers[lease]? = some w)
    {phase : Phase} (houtcome : ∀ o, phase = .settled o → Settles w.row o) {sys' : System η}
    (hwrites : sys'.writes = sys.writes) (hworkers : sys'.workers = (setPhase lease w phase sys).workers)
    (hlog : sys'.log = sys.log ∨ ∃ id key payload, sys'.log = sys.log ++ [.added lease w.row.id id payload key] ∧
      law sys.log (.added lease w.row.id id payload key)) : Inv host sys' := by
  have hlog' : ∀ l, sys'.log = sys.log ∨ ∃ e, (∀ id, e ≠ .claimed l id) ∧ sys'.log = sys.log ++ [e] := by
    intro l
    rcases hlog with heq | ⟨id, key, payload, heq, -⟩
    · exact Or.inl heq
    · exact Or.inr ⟨_, fun id h => (by cases h), heq⟩
  have hsub : sys.log ⊆ sys'.log := by
    rcases hlog with heq | ⟨id, key, payload, heq, -⟩
    · rw [heq]
      exact fun x hx => hx
    · rw [heq]
      exact List.subset_append_left _ _
  have hsame : ∀ id, stateOf id sys'.log = stateOf id sys.log ∧ failures id sys'.log = failures id sys.log := by
    intro id'
    rcases hlog with heq | ⟨id, key, payload, heq, -⟩
    · rw [heq]
      exact ⟨rfl, rfl⟩
    · rw [heq]
      exact stateOf_snoc fun _ _ _ h => by cases h
  have hmem : ∀ e ∈ sys'.log, (∀ id key payload, e ≠ .added lease w.row.id id payload key) → e ∈ sys.log := by
    intro e he hne
    rcases hlog with heq | ⟨id, key, payload, heq, -⟩
    · exact heq ▸ he
    · rw [heq, List.mem_append, List.mem_singleton] at he
      exact he.resolve_right (hne id key payload)
  refine ⟨by rw [hwrites]; exact hinv.keyed, fun r hr => ?_, fun l w' hw' => ?_, fun id th tu p k he => ?_,
    fun l id st f he => ?_, fun l id he => ?_, ?_⟩
  · exact (hinv.rows r (hwrites ▸ hr)).mono hsub (hsame r.id) (sameWorkers_setPhase hw hworkers)
  · rw [hworkers] at hw'
    rcases getElem?_setPhase hw hw' with ⟨rfl, rfl⟩ | ⟨-, hold⟩
    · exact (hinv.workers l w hw).mono rfl rfl (hlog' l) houtcome
    · have hworker := hinv.workers l w' hold
      exact hworker.mono rfl rfl (hlog' l) hworker.outcome
  · rw [hwrites]
    exact hinv.inserted id th tu p k (hmem _ he fun _ _ _ h => by cases h)
  · rw [hwrites]
    exact hinv.recorded l id st f (hmem _ he fun _ _ _ h => by cases h)
  · have hlength : sys'.workers.length = sys.workers.length := by
      rw [hworkers]
      exact List.length_set
    rw [hlength]
    exact hinv.leases l id (hmem _ he fun _ _ _ h => by cases h)
  · rcases hlog with heq | ⟨id, key, payload, heq, hlaw⟩
    · rw [heq]
      exact hinv.lawful
    · rw [heq]
      exact lawful_snoc.mpr ⟨hinv.lawful, hlaw⟩

/-- **The call**: what a worker sends is lawful. -/
theorem law_added (hinv : Inv host sys) {lease : ℕ} {w : Worker η} (hw : sys.workers[lease]? = some w)
    (hpending : w.row.state = .pending) :
    law sys.log (.added lease w.row.id w.row.id (opened host w.row.payload) w.key) := by
  have hworker := hinv.workers lease w hw
  obtain ⟨thread, turn, payload, hmem, hpayload⟩ := hworker.origin
  refine ⟨rfl, ⟨thread, turn, ?_⟩, hworker.claimed, fun a b heq => ?_⟩
  · rw [hpayload, opened_stored]
    exact hmem
  · rw [← hpending]
    exact hworker.since a _ b heq

theorem Inv.insert (hinv : Inv host sys) {dataset : η} {thread turn payload key user : String} {agent : Option String}
    {time : Time} (hnew : ∀ r ∈ sys.writes, r.id ≠ host.identity dataset thread turn)
    (hdataset : dataset = host.dataset user agent key) :
    Inv host { sys with
      writes := sys.writes ++ [{ id := host.identity dataset thread turn, dataset, payload := stored host payload
                                 state := .pending, nextAt := time, updated := time }]
      log := sys.log ++ [.inserted (host.identity dataset thread turn) thread turn payload key] } := by
  have hquiet : ∀ id', stateOf id' (sys.log ++ [.inserted (host.identity dataset thread turn) thread turn payload key]) =
      stateOf id' sys.log ∧ failures id' (sys.log ++ [.inserted (host.identity dataset thread turn) thread turn payload
        key]) = failures id' sys.log := fun id' => stateOf_snoc fun _ _ _ h => by cases h
  have hworkers : ∀ sys' : System η, sys'.workers = sys.workers → SameWorkers sys sys' :=
    fun sys' heq l w hw => ⟨w, by rw [heq]; exact hw, rfl⟩
  refine ⟨?_, fun r hr => ?_, fun l w hw => ?_, fun id th tu p k he => ?_, fun l id st f he => ?_, fun l id he => ?_, ?_⟩
  · refine keyed_append.mpr ⟨hinv.keyed, List.nodup_singleton _, fun r hr r' hr' => ?_⟩
    rw [List.mem_singleton.mp hr']
    exact hnew r hr
  · rcases List.mem_append.mp hr with hr | hr
    · exact (hinv.rows r hr).mono (List.subset_append_left _ _) (hquiet r.id) (hworkers _ rfl)
    · obtain rfl := List.mem_singleton.mp hr
      obtain ⟨hstate, hfailures⟩ : stateOf (host.identity dataset thread turn) sys.log = .pending ∧
          failures (host.identity dataset thread turn) sys.log = 0 := by
        refine stateOf_of_absent fun l st f hmem => ?_
        obtain ⟨r, hr, hid⟩ := hinv.recorded l _ st f hmem
        exact hnew r hr hid
      refine ⟨?_, ?_, Or.inl (Nat.zero_lt_succ 2), ⟨thread, turn, payload, key, user, agent, by simp, rfl, hdataset, rfl⟩,
        fun l hl => by cases hl⟩
      · exact ((hquiet _).1.trans hstate).symm
      · exact ((hquiet _).2.trans hfailures).symm
  · have hworker := hinv.workers l w hw
    exact hworker.mono rfl rfl (Or.inr ⟨_, fun id h => (by cases h), rfl⟩) hworker.outcome
  · rcases List.mem_append.mp he with he | he
    · obtain ⟨r, hr, hid⟩ := hinv.inserted id th tu p k he
      exact ⟨r, List.mem_append_left _ hr, hid⟩
    · cases List.mem_singleton.mp he
      exact ⟨_, List.mem_append_right _ (List.mem_singleton.mpr rfl), rfl⟩
  · rcases List.mem_append.mp he with he | he
    · obtain ⟨r, hr, hid⟩ := hinv.recorded l id st f he
      exact ⟨r, List.mem_append_left _ hr, hid⟩
    · cases List.mem_singleton.mp he
  · rcases List.mem_append.mp he with he | he
    · exact hinv.leases l id he
    · cases List.mem_singleton.mp he
  · refine lawful_snoc.mpr ⟨hinv.lawful, fun th tu p k hmem => ?_⟩
    obtain ⟨r, hr, hid⟩ := hinv.inserted _ th tu p k hmem
    exact hnew r hr hid

theorem Inv.lease (hinv : Inv host sys) {row : Row η} (hrow : row ∈ sys.writes) (hopen : row.state.isOpen = true)
    {key user : String} {agent : Option String} {now : Time} (hdataset : row.dataset = host.dataset user agent key) :
    Inv host { sys with
      writes := leaseRow row.id sys.workers.length now sys.writes
      workers := sys.workers ++ [⟨row, key, row.dataset, now, .claimed⟩]
      log := sys.log ++ [.claimed sys.workers.length row.id] } := by
  have hquiet : ∀ id', stateOf id' (sys.log ++ [.claimed sys.workers.length row.id]) = stateOf id' sys.log ∧
      failures id' (sys.log ++ [.claimed sys.workers.length row.id]) = failures id' sys.log :=
    fun id' => stateOf_snoc fun _ _ _ h => by cases h
  have hold := hinv.rows row hrow
  have hattempts : row.attempts < 3 := by
    rcases hold.bounded with hlt | hfailed
    · exact hlt
    · rw [hfailed] at hopen
      cases hopen
  obtain ⟨thread, turn, payload, key', user', agent', hmem, hid, hdataset', hpayload⟩ := hold.origin
  obtain ⟨-, -, rfl⟩ := host.dataset_injective (hdataset'.symm.trans hdataset)
  rw [if_pos hopen] at hpayload
  have hback : ∀ id, (∃ r ∈ sys.writes, r.id = id) →
      ∃ r ∈ leaseRow row.id sys.workers.length now sys.writes, r.id = id := by
    intro id h
    rwa [← List.mem_map, map_id_leaseRow, List.mem_map]
  refine ⟨?_, fun r' hr' => ?_, fun l w hw => ?_, fun id th tu p k he => hback id ?_, fun l id st f he => hback id ?_,
    fun l id he => ?_, ?_⟩
  · rw [Keyed, map_id_leaseRow]
    exact hinv.keyed
  · obtain ⟨r, hr, rfl⟩ := mem_updateWhere.mp hr'
    have hmono : RowInv host { sys with
        workers := sys.workers ++ [⟨row, key', row.dataset, now, .claimed⟩]
        log := sys.log ++ [.claimed sys.workers.length row.id] } r := by
      refine (hinv.rows r hr).mono (List.subset_append_left _ _) (hquiet r.id) fun l w hw => ⟨w, ?_, rfl⟩
      rw [List.getElem?_append_left (lt_of_getElem? hw)]
      exact hw
    split_ifs with hrid
    · refine ⟨hmono.state, hmono.attempts, hmono.bounded, hmono.origin, fun l hl => ?_⟩
      cases hl
      refine ⟨⟨row, key', row.dataset, now, .claimed⟩, List.getElem?_concat_length, ?_⟩
      rw [hinv.keyed.eq_of_key hr hrow hrid]
      exact ⟨rfl, rfl, rfl⟩
    · exact ⟨hmono.state, hmono.attempts, hmono.bounded, hmono.origin, hmono.lease⟩
  · by_cases hl : l < sys.workers.length
    · rw [List.getElem?_append_left hl] at hw
      have hworker := hinv.workers l w hw
      refine hworker.mono rfl rfl (Or.inr ⟨_, fun id h => ?_, rfl⟩) hworker.outcome
      cases h
      exact absurd hl (Nat.lt_irrefl _)
    · obtain rfl : l = sys.workers.length := by
        have hlt := (List.getElem?_eq_some_iff.mp hw).1
        rw [List.length_append, List.length_singleton] at hlt
        omega
      rw [List.getElem?_concat_length] at hw
      cases hw
      refine ⟨by simp, fun a id b heq => ?_, hopen, hattempts, ⟨thread, turn, payload, by simp [hmem], hpayload⟩,
        fun o ho => by cases ho⟩
      rcases split_snoc heq with ⟨rfl, he⟩ | ⟨b', hb'⟩
      · cases he
        exact hold.state.symm
      · have hin : .claimed sys.workers.length id ∈ sys.log := by
          rw [hb']
          simp
        exact absurd (hinv.leases _ _ hin) (Nat.lt_irrefl _)
  · rcases List.mem_append.mp he with he | he
    · exact hinv.inserted id th tu p k he
    · cases List.mem_singleton.mp he
  · rcases List.mem_append.mp he with he | he
    · exact hinv.recorded l id st f he
    · cases List.mem_singleton.mp he
  · rw [List.length_append, List.length_singleton]
    rcases List.mem_append.mp he with he | he
    · exact Nat.lt_succ_of_lt (hinv.leases l id he)
    · cases List.mem_singleton.mp he
      exact Nat.lt_succ_self _
  · refine lawful_snoc.mpr ⟨hinv.lawful, ⟨thread, turn, payload, key', hmem⟩, ?_, ?_⟩
    · rw [← hold.state]
      exact hopen
    · rw [← hold.attempts]
      exact hattempts

/-- **The record** of a worker whose lease is still on the row. -/
theorem Inv.record (hinv : Inv host sys) {lease : ℕ} {w : Worker η} {o : Outcome}
    (hw : sys.workers[lease]? = some w) (hphase : w.phase = .settled o) {row : Row η} (hrow : row ∈ sys.writes)
    (hid : row.id = w.row.id) (hlease : row.lease = some lease) :
    Inv host { setPhase lease w .finished sys with
      writes := recordRow w.row.id lease w.now o sys.writes
      log := sys.log ++ [.recorded lease w.row.id o.state (w.row.attempts < o.attempts)] } := by
  have hold := hinv.rows row hrow
  have hworker := hinv.workers lease w hw
  have hsettles := hworker.outcome o hphase
  obtain ⟨w', hw', -, hstate, hattempts⟩ := hold.lease lease hlease
  obtain rfl : w = w' := Option.some.inj (hw.symm.trans hw')
  have hlogstate : stateOf w.row.id sys.log = w.row.state := by rw [← hid, ← hold.state, hstate]
  have hlogfailures : failures w.row.id sys.log = w.row.attempts := by rw [← hid, ← hold.attempts, hattempts]
  have hback : ∀ id, (∃ r ∈ sys.writes, r.id = id) →
      ∃ r ∈ recordRow w.row.id lease w.now o sys.writes, r.id = id := by
    intro id h
    rwa [← List.mem_map, map_id_recordRow, List.mem_map]
  have hcases : ∀ {e : Entry η}, e ∈ sys.log ++ [.recorded lease w.row.id o.state (w.row.attempts < o.attempts)] →
      e ∈ sys.log ∨ e = .recorded lease w.row.id o.state (w.row.attempts < o.attempts) :=
    fun he => (List.mem_append.mp he).imp_right List.mem_singleton.mp
  have hlog' : ∀ l, ∃ e, (∀ id, e ≠ .claimed l id) ∧
      sys.log ++ [.recorded lease w.row.id o.state (w.row.attempts < o.attempts)] = sys.log ++ [e] :=
    fun l => ⟨_, fun id h => (by cases h), rfl⟩
  refine ⟨?_, fun r' hr' => ?_, fun l w' hw' => ?_, fun id th tu p k he => hback id ?_, fun l id st f he => hback id ?_,
    fun l id he => ?_, ?_⟩
  · rw [Keyed, map_id_recordRow]
    exact hinv.keyed
  · obtain ⟨r, hr, rfl⟩ := mem_updateWhere.mp hr'
    by_cases hmatch : r.id = w.row.id ∧ r.lease = some lease
    · rw [if_pos hmatch]
      obtain rfl : r = row := hinv.keyed.eq_of_key hr hrow (hmatch.1.trans hid.symm)
      obtain ⟨thread, turn, payload, key, user, agent, hmem, hident, hdataset, hpayload⟩ := hold.origin
      have hopen : r.state.isOpen = true := by
        rw [← hstate]
        exact hworker.isOpen
      rw [if_pos hopen] at hpayload
      refine ⟨?_, ?_, hsettles.bounded, ⟨thread, turn, payload, key, user, agent, List.mem_append_left _ hmem, hident,
        hdataset, by rw [hpayload]⟩, fun l hl => by cases hl⟩
      · show o.state = stateOf r.id (sys.log ++ [_])
        rw [hid, stateOf_recorded]
      · show o.attempts = failures r.id (sys.log ++ [_])
        rw [hid, failures_recorded, hlogfailures]
        rcases hsettles.attempts with heq | heq
        · simp [heq]
        · simp [heq]
    · rw [if_neg hmatch]
      have hne : w.row.id ≠ r.id := by
        intro heq
        refine hmatch ⟨heq.symm, ?_⟩
        rw [hinv.keyed.eq_of_key hr hrow (heq.symm.trans hid.symm)]
        exact hlease
      refine (hinv.rows r hr).mono (List.subset_append_left _ _) (stateOf_snoc fun _ _ _ h => ?_)
        (sameWorkers_setPhase hw rfl)
      obtain ⟨-, hrid, -⟩ := Entry.recorded.inj h
      exact hne hrid
  · rcases getElem?_setPhase hw hw' with ⟨rfl, rfl⟩ | ⟨-, hother⟩
    · exact hworker.mono rfl rfl (Or.inr (hlog' l)) fun o ho => by cases ho
    · have hworker' := hinv.workers l w' hother
      exact hworker'.mono rfl rfl (Or.inr (hlog' l)) hworker'.outcome
  · rcases hcases he with he | he
    · exact hinv.inserted id th tu p k he
    · cases he
  · rcases hcases he with he | he
    · exact hinv.recorded l id st f he
    · cases he
      exact ⟨row, hrow, hid⟩
  · have hlength : (setPhase lease w .finished sys).workers.length = sys.workers.length := List.length_set
    rcases hcases he with he | he
    · exact hlength ▸ hinv.leases l id he
    · cases he
  · refine lawful_snoc.mpr ⟨hinv.lawful, ?_⟩
    show Moves (stateOf w.row.id sys.log) o.state
    rw [hlogstate]
    exact hsettles.moves

/-! ### Steps -/

theorem captured_spec {b : Option (Binding η)} {cancelled : List (String × String)} {ticket : Option (Ticket η)}
    {response : Response} {providerSecret : String} {t : Ticket η} {payload : String}
    (h : captured host b cancelled ticket response providerSecret = some (t, payload)) :
    ∃ b₀, b = some b₀ ∧ b₀.dataset = t.dataset := by
  unfold captured at h
  split at h
  · next t₀ b₀ =>
    split_ifs at h with hstatus hcancelled htext hdataset hsize
    simp only at h
    split_ifs at h
    cases h
    exact ⟨b₀, rfl, not_not.mp hdataset⟩
  · cases h

theorem nextRow_spec {dataset : η} {now : Time} {row : Row η} (h : nextRow dataset now sys.writes = some row) :
    row ∈ sys.writes ∧ row.dataset = dataset ∧ row.state.isOpen = true := by
  obtain ⟨hmem, hcond⟩ := List.mem_filter.mp (mem_of_firstBy h)
  have hcond' : row.dataset = dataset ∧ row.state.isOpen = true ∧ row.nextAt ≤ now ∧ row.leaseUntil ≤ now := by
    simpa using hcond
  exact ⟨hmem, hcond'.1, hcond'.2.1⟩

theorem Inv.capture (hinv : Inv host sys) {s : Settings} {key : Option String} (cancelled : List (String × String))
    (ticket : Option (Ticket η)) (response : Response) (providerSecret : String) (count : ℕ) (time : Time) :
    Inv host (captureStep host (binding host s key) cancelled ticket response providerSecret count time sys) := by
  unfold captureStep
  split
  · exact hinv
  · next t payload hcaptured =>
    obtain ⟨b, hb, hdataset⟩ := captured_spec hcaptured
    have hkey := binding_spec hb
    rw [hb]
    by_cases hfull : 500 ≤ count
    · rw [if_pos hfull]
      exact hinv
    rw [if_neg hfull]
    unfold insertWrite
    by_cases hex : ∃ r ∈ sys.writes, r.id = host.identity t.dataset t.thread t.turn
    · simp only [if_pos hex, List.append_nil]
      exact hinv
    · simp only [if_neg hex]
      exact hinv.insert (fun r hr hid => hex ⟨r, hr, hid⟩) (hdataset.symm.trans hkey)

theorem Inv.claim (hinv : Inv host sys) {s : Settings} {key : Option String} (now : Time) :
    Inv host (claimStep (binding host s key) now sys) := by
  unfold claimStep
  split
  · exact hinv
  · next b hb =>
    split
    · exact hinv
    · next row hrow =>
      obtain ⟨hmem, hdataset, hopen⟩ := nextRow_spec hrow
      rw [← hdataset]
      exact hinv.lease hmem hopen (hdataset.trans (binding_spec hb))

theorem Inv.finish (hinv : Inv host sys) {lease : ℕ} {w : Worker η} {o : Outcome}
    (hw : sys.workers[lease]? = some w) (hphase : w.phase = .settled o) : Inv host (finishStep lease w o sys) := by
  unfold finishStep
  by_cases hmatch : ∃ r ∈ sys.writes, r.id = w.row.id ∧ r.lease = some lease
  · obtain ⟨r, hr, hid, hlease⟩ := hmatch
    simp only [if_pos (show ∃ r ∈ sys.writes, r.id = w.row.id ∧ r.lease = some lease from ⟨r, hr, hid, hlease⟩)]
    exact hinv.record hw hphase hr hid hlease
  · have hsame : recordRow w.row.id lease w.now o sys.writes = sys.writes :=
      updateWhere_eq_self fun r hr h => hmatch ⟨r, hr, h⟩
    simp only [if_neg hmatch, List.append_nil, hsame]
    exact hinv.phase hw (fun o ho => by cases ho) rfl rfl (Or.inl rfl)

/-- **One step** keeps the invariant. -/
theorem Inv.step (hinv : Inv host sys) (e : Event η) : Inv host (step host sys e) := by
  cases e with
  | capture s key cancelled ticket response providerSecret count time =>
    exact hinv.capture cancelled ticket response providerSecret count time
  | claim s key now => exact hinv.claim now
  | check lease stopped s key =>
    simp only [Outbox.step]
    split
    · next w hw =>
      have hworker := hinv.workers lease w hw
      split_ifs with hphase
      · unfold checkStep
        split_ifs
        · refine hinv.phase hw (fun o ho => ?_) rfl rfl (Or.inl rfl)
          cases ho
          exact settles_outcome hworker.isOpen hworker.attempts
        · exact hinv.phase hw (fun o ho => by cases ho) rfl rfl (Or.inl rfl)
      · exact hinv
    · exact hinv
  | call lease =>
    simp only [Outbox.step]
    split
    · next w hw =>
      split_ifs with hphase
      · unfold callStep
        simp only
        split_ifs with hpending
        · exact hinv.phase hw (fun o ho => by cases ho) rfl rfl (Or.inr ⟨_, _, _, rfl, law_added hinv hw hpending⟩)
        · exact hinv.phase hw (fun o ho => by cases ho) rfl rfl (Or.inl rfl)
      · exact hinv
    · exact hinv
  | reply lease r closed =>
    simp only [Outbox.step]
    split
    · next w hw =>
      have hworker := hinv.workers lease w hw
      split_ifs with hphase
      · refine hinv.phase hw (fun o ho => ?_) rfl rfl (Or.inl rfl)
        cases ho
        exact settles_settle w.now r closed hworker.isOpen hworker.attempts
      · exact hinv
    · exact hinv
  | finish lease =>
    simp only [Outbox.step]
    split
    · next w hw =>
      split
      · next o hphase => exact hinv.finish hw hphase
      · exact hinv
    · exact hinv

/-! ### All runs -/

/-- **The queue of the conversation memory.** In every run, what happens is lawful. A turn has one row at most, which
was inserted with the key of its dataset. The state of a row is the one that was recorded last, its payload is empty
exactly when that is a terminal one, and with three recorded failures it is `failed`. -/
theorem outbox (events : List (Event η)) :
    let sys := run (step host) {} events
    Lawful law sys.log ∧ Keyed Row.id sys.writes ∧
      ∀ r ∈ sys.writes,
        (∃ thread turn payload key user agent, .inserted r.id thread turn payload key ∈ sys.log ∧
          r.id = host.identity r.dataset thread turn ∧ r.dataset = host.dataset user agent key) ∧
        r.state = stateOf r.id sys.log ∧ (r.payload = "" ↔ r.state.isOpen = false) ∧
        (3 ≤ failures r.id sys.log → r.state = .failed) := by
  have hinv : Inv host (run (step host) {} events) :=
    inv_run (G := fun _ _ => True) (fun _ e h _ => h.step e) inv_start (along_of_forall fun _ _ => trivial)
  refine ⟨hinv.lawful, hinv.keyed, fun r hr => ?_⟩
  have hrow := hinv.rows r hr
  obtain ⟨thread, turn, payload, key, user, agent, hmem, hid, hdataset, hpayload⟩ := hrow.origin
  refine ⟨⟨thread, turn, payload, key, user, agent, hmem, hid, hdataset⟩, hrow.state, ?_, fun hthree => ?_⟩
  · rw [hpayload]
    cases hopen : r.state.isOpen with
    | true => simpa using stored_ne payload
    | false => simp
  · rcases hrow.bounded with hlt | hfailed
    · rw [hrow.attempts] at hlt
      omega
    · exact hfailed

end Inv

/-- A host whose digests are the lists themselves. -/
def plain : Host (List (Option String)) where
  nt := false
  protect := id
  unprotect := id
  unprotect_protect _ := rfl
  redact text _ := text
  dumps m := m.user
  dataset user agent key := [some user, agent, some key]
  dataset_injective h := by simpa using h
  identity dataset thread turn := [some thread, some turn] ++ dataset
  identity_injective h := by
    obtain ⟨hpair, hdataset⟩ := List.append_inj h rfl
    simp only [List.cons.injEq, Option.some.injEq] at hpair
    exact ⟨hdataset, hpair.1, hpair.2.1⟩
  projectAgent := "smara-project-0"

/-- The first worker finishes after its lease was taken over, and records nothing. -/
example :
    let s : Settings := ⟨true, "me", .personal⟩
    let t : Ticket (List (Option String)) := ⟨"thread", "turn", "Hello", [some "me", none, some "key"], none, "me", "key"⟩
    let r : Response := ⟨"completed", [⟨"message", [⟨"output_text", "Hi"⟩]⟩]⟩
    let sys := run (step plain) {} [.capture s (some "key") [] (some t) r "" 0 0, .claim s (some "key") 0,
      .check 0 false s (some "key"), .call 0, .claim s (some "key") 30, .check 1 false s (some "key"), .call 1,
      .reply 1 (.result (some "event-1") none) true, .finish 1, .reply 0 .raised true, .finish 0]
    sys.writes.map (fun r => (r.state, r.attempts)) = [(.submitted, 0)] ∧ sys.log.length = 6 := by
  decide

end Smara.Native.Outbox
