import Smara.Lib.Machine
import Smara.Lib.Table
import Mathlib.Algebra.Order.Group.Int

/-! # Terminal sessions

Processes of the desktop that outlive a call, and the journal through which every bridge process finds them. The
journal keeps 32 entries, a journal that cannot be read counts as an empty one, and an entry whose process was not
killed is no longer running.

* `start`, `poll`, `cancel`, `list`, `watch`: the operations, each under the lock of the journal.
* `Known`, `OnePerFolder`, `Reaches`: a live process has a running entry, no folder has two of them, and whatever
  refreshes its entry enforces its limits.
* `terminals`: these hold in every run whose steps are `Sound`. -/

namespace Smara.Desktop.Terminals

open Lib.Machine Lib.Table

/-! ### The journal and the processes -/

abbrev Time := ℤ
abbrev Path := List String

def maxSessions : ℕ := 32
def maxSessionSeconds : ℤ := 60 * 60
def maxOutputBytes : ℕ := 4 * 1024 * 1024
def maxMetadataBytes : ℕ := 512 * 1024

inductive Status
  | running
  | completed
  | failed
  | finished
  | cancelled
  | expired
  | outputLimit
  | lost
  | cancellationUncertain
  deriving DecidableEq

def terminalStatuses : List Status := [.completed, .failed, .finished, .cancelled, .expired, .outputLimit, .lost]

structure Entry where
  id : String
  pid : ℕ
  executable : String
  argv : List String
  cwd : Path
  offset : ℕ := 0
  bytes : ℕ := 0
  maxSeconds : ℤ
  startedAt : Time
  updatedAt : Time
  status : Status := .running
  exitCode : Option ℤ := none
  cancelReason : Option String := none
  pendingOutput : String := ""
  deriving DecidableEq

/-- A process that was started, with its exit code once it has ended. -/
structure Proc where
  session : String
  pid : ℕ
  cwd : Path
  maxSeconds : ℤ
  startedAt : Time
  exit : Option ℤ := none
  deriving DecidableEq

/-- The processes, and the handles `_PROCESS_HANDLES` of each bridge process. -/
structure World where
  procs : List Proc := []
  handles : List (ℕ × String) := []

/-- The file `sessions.json`, and the threads `terminal-deadline` of each bridge process. -/
structure System where
  world : World := {}
  journal : List Entry := []
  watchers : List (ℕ × String) := []

/-- Whether the journal can be read and written. -/
structure Disk where
  readable : Bool := true
  writable : Bool := true

/-- What one look at a session finds. -/
structure Probe where
  now : Time
  logSize : Option ℕ
  /-- The system has another process with the pid. -/
  taken : Bool := false
  /-- What a stop attempt brings, if one is made. -/
  killed : Bool := true
  exitCode : ℤ := -15
  takenAfter : Bool := false

/-- What `_read_output` leaves in an entry. -/
structure Output where
  offset : ℕ
  bytes : ℕ
  pendingOutput : String

structure Public where
  status : Status
  done : Bool

def pidAlive (pid : ℕ) (taken : Bool) (w : World) : Bool := w.procs.any (fun p => p.pid = pid ∧ p.exit = none) || taken

def stopPid (pid : ℕ) (probe : Probe) (w : World) : World :=
  if pidAlive pid probe.taken w = true ∧ probe.killed = true then
    { w with
      procs := updateWhere (fun p => p.pid = pid ∧ p.exit = none) (fun p => { p with exit := some probe.exitCode }) w.procs }
  else w

/-- `process.poll()` of the handle of a session. -/
def exitOf (id : String) (w : World) : Option ℤ := (lookup Proc.session id w.procs).bind Proc.exit

def popHandle (host : ℕ) (id : String) (w : World) : World := { w with handles := w.handles.filter fun h => h ≠ (host, id) }

def observe (host : ℕ) (taken : Bool) (known : Option ℤ) (e : Entry) (w : World) : Option ℤ × Bool :=
  if (host, e.id) ∈ w.handles then (exitOf e.id w, (exitOf e.id w).isNone) else (known, pidAlive e.pid taken w)

/-- The limit that a session is over. -/
def limit (probe : Probe) (e : Entry) : Option Status :=
  let (elapsed, logSize) :=
    match probe.logSize with
    | some size => (probe.now - e.startedAt, size)
    | none => (0, 0)
  if maxOutputBytes < logSize then some .outputLimit
  else if (if e.maxSeconds = 0 then maxSessionSeconds else e.maxSeconds) ≤ elapsed then some .expired
  else none

/-- The status of a process that is not alive. -/
def statusOf (reason : Option Status) (code : Option ℤ) : Status :=
  if reason = some .expired ∧ code ∈ [some 124, some 137, some 143] then .expired
  else
    match code with
    | some 0 => .completed
    | some _ => .failed
    | none => .finished

def refresh (host : ℕ) (probe : Probe) (e : Entry) (w : World) : Entry × World :=
  if e.status ≠ .running then (e, w)
  else
    let (code, alive) := observe host probe.taken e.exitCode e w
    match alive, limit probe e with
    | true, some reason =>
      let w := stopPid e.pid probe w
      let (code, alive) := observe host probe.takenAfter none e w
      ({ e with
          status := if alive then .cancellationUncertain else reason
          exitCode := code
          updatedAt := probe.now }, popHandle host e.id w)
    | true, none => (e, w)
    | false, reason => ({ e with status := statusOf reason code, exitCode := code, updatedAt := probe.now }, popHandle host e.id w)

section Operations
variable (size : List Entry → ℕ) (safeValue : String → String) (allowedRoots : List Path)

def read (disk : Disk) (sys : System) : List Entry :=
  if disk.readable = true ∧ size sys.journal ≤ maxMetadataBytes then sys.journal.take maxSessions else []

def write (disk : Disk) (entries : List Entry) (sys : System) : System :=
  if disk.writable = true then { sys with journal := entries.take maxSessions } else sys

def setEntry (e : Entry) (entries : List Entry) : List Entry := updateWhere (fun e' => e'.id = e.id) (fun _ => e) entries

structure Start where
  argv : List String
  cwd : Path
  executable : Option String := none
  maxSeconds : ℤ := 900
  isDir : Bool := true
  /-- What the folders of entries resolve to. -/
  resolve : Path → Path := fun p => p
  /-- The system has another process with the pid of a session. -/
  taken : String → Bool := fun _ => false
  id : String
  pid : Option ℕ
  now : Time

/-- The checks of `start` and `_validate_cwd`. -/
def Start.Valid (s : Start) : Prop :=
  s.argv ≠ [] ∧ (∀ a ∈ s.argv, a ≠ "") ∧ s.argv.length ≤ 64 ∧ (∀ a ∈ s.argv, a.length ≤ 4000) ∧ s.isDir = true ∧
    (allowedRoots = [] ∨ ∃ root ∈ allowedRoots, root <+: s.cwd) ∧ 1 ≤ s.maxSeconds ∧ s.maxSeconds ≤ maxSessionSeconds

instance (s : Start) : Decidable (s.Valid allowedRoots) := inferInstanceAs (Decidable (_ ∧ _))

/-- `Path(…).name` -/
def name (path : String) : String := ((path.splitOn "/").filter fun part => part ≠ "" ∧ part ≠ ".").getLast?.getD ""

def Start.entry (s : Start) (pid : ℕ) : Entry where
  id := s.id
  pid
  executable := safeValue (s.executable.getD (name (s.argv.head?.getD "")))
  argv := s.argv.map safeValue
  cwd := s.cwd
  maxSeconds := s.maxSeconds
  startedAt := s.now
  updatedAt := s.now

def Start.proc (s : Start) (pid : ℕ) : Proc where
  session := s.id
  pid
  cwd := s.cwd
  maxSeconds := s.maxSeconds
  startedAt := s.now

def Active (s : Start) (entries : List Entry) (w : World) : Prop :=
  ∃ e ∈ entries, e.status = .running ∧ s.resolve e.cwd = s.cwd ∧ pidAlive e.pid (s.taken e.id) w = true

instance (s : Start) (entries : List Entry) (w : World) : Decidable (Active s entries w) :=
  inferInstanceAs (Decidable (∃ _ ∈ _, _))

/-- `start`: the process is there before the journal is written. -/
def start (host : ℕ) (s : Start) (disk : Disk) (sys : System) : System :=
  let entries := read size disk sys
  if s.Valid allowedRoots ∧ ¬ Active s entries sys.world then
    match s.pid with
    | some pid =>
      let sys := { sys with world := {
        procs := sys.world.procs ++ [s.proc pid]
        handles := (host, s.id) :: sys.world.handles } }
      let sys := write disk (s.entry safeValue pid :: entries.filter fun e => e.id ≠ s.id) sys
      if disk.writable = true then { sys with watchers := (host, s.id) :: sys.watchers } else sys
    | none => sys
  else sys

/-- `poll`; `none` is the `KeyError`. -/
def poll (host : ℕ) (id : String) (probe : Probe) (out : Output) (disk : Disk) (sys : System) : Option Public × System :=
  let entries := read size disk sys
  match lookup Entry.id id entries with
  | none => (none, sys)
  | some e =>
    let (e, w) := refresh host probe e sys.world
    let e := { e with offset := out.offset, bytes := out.bytes, pendingOutput := out.pendingOutput, updatedAt := probe.now }
    let more := out.offset < out.bytes ∨ out.pendingOutput ≠ ""
    (some { status := e.status, done := e.status ∈ terminalStatuses ∧ ¬ more },
      write disk (setEntry e entries) { sys with world := w })

def cancel (host : ℕ) (id reason : String) (probe : Probe) (out : Output) (disk : Disk) (sys : System) :
    Option Public × System :=
  let entries := read size disk sys
  match lookup Entry.id id entries with
  | none => (none, sys)
  | some e =>
    let (e, w) :=
      if e.status = .running then
        let w := stopPid e.pid probe sys.world
        ({ e with
            status := if pidAlive e.pid probe.takenAfter w then .cancellationUncertain else .cancelled
            cancelReason := some (String.ofList (reason.toList.take 240))
            updatedAt := probe.now }, popHandle host id w)
      else (e, sys.world)
    let e := { e with offset := out.offset, bytes := out.bytes, pendingOutput := out.pendingOutput }
    (some { status := e.status, done := e.status ∈ terminalStatuses }, write disk (setEntry e entries) { sys with world := w })

/-- The entries of the journal, refreshed one after the other. -/
def refreshAll (host : ℕ) (probes : String → Probe) : List Entry → World → List Entry × World
  | [], w => ([], w)
  | e :: entries, w =>
    let (e, w) := refresh host (probes e.id) e w
    let (entries, w) := refreshAll host probes entries w
    (e :: entries, w)

/-- `list`, and `has_active` -/
def list (host : ℕ) (probes : String → Probe) (disk : Disk) (sys : System) : System :=
  let entries := read size disk sys
  let (entries', w) := refreshAll host probes entries sys.world
  let sys := { sys with world := w }
  if entries'.map Entry.status ≠ entries.map Entry.status then write disk entries' sys else sys

def unwatch (host : ℕ) (id : String) (sys : System) : System :=
  { sys with watchers := sys.watchers.filter fun h => h ≠ (host, id) }

/-- One round of `_watch`. -/
def watch (host : ℕ) (id : String) (probe : Probe) (disk : Disk) (sys : System) : System :=
  let entries := read size disk sys
  match lookup Entry.id id entries with
  | none => unwatch host id sys
  | some e =>
    if e.status ≠ .running then unwatch host id sys
    else
      let (e, w) := refresh host probe e sys.world
      let sys := { sys with world := w }
      if e.status = .running then sys
      else if disk.writable = true ∨ exitOf id w ≠ none then unwatch host id (write disk (setEntry e entries) sys)
      else sys

end Operations

/-! ### Runs -/

inductive Event
  /-- A process ends by itself. -/
  | exit (id : String) (code : ℤ)
  /-- A bridge process ends, with its handles and threads. -/
  | crash (host : ℕ)
  | start (host : ℕ) (s : Start) (disk : Disk)
  | poll (host : ℕ) (id : String) (probe : Probe) (out : Output) (disk : Disk)
  | cancel (host : ℕ) (id reason : String) (probe : Probe) (out : Output) (disk : Disk)
  | list (host : ℕ) (probes : String → Probe) (disk : Disk)
  | watch (host : ℕ) (id : String) (probe : Probe) (disk : Disk)

def Start.Fresh (s : Start) (w : World) : Prop :=
  (∀ p ∈ w.procs, p.session ≠ s.id) ∧ ∀ p ∈ w.procs, p.exit = none → s.pid ≠ some p.pid

instance (s : Start) (w : World) : Decidable (s.Fresh w) := inferInstanceAs (Decidable (_ ∧ _))

section Step
variable (size : List Entry → ℕ) (safeValue : String → String) (allowedRoots : List Path)

def step (sys : System) : Event → System
  | .exit id code => { sys with world := { sys.world with
      procs := updateWhere (fun p => p.session = id ∧ p.exit = none) (fun p => { p with exit := some code }) sys.world.procs } }
  | .crash host => { sys with
      world := { sys.world with handles := sys.world.handles.filter fun h => h.1 ≠ host }
      watchers := sys.watchers.filter fun h => h.1 ≠ host }
  | .start host s disk => if s.Fresh sys.world then start size safeValue allowedRoots host s disk sys else sys
  | .poll host id probe out disk => (poll size host id probe out disk sys).2
  | .cancel host id reason probe out disk => (cancel size host id reason probe out disk sys).2
  | .list host probes disk => list size host probes disk sys
  | .watch host id probe disk => if (host, id) ∈ sys.watchers then watch size host id probe disk sys else sys

end Step

def Stands (p : Proc) (e : Entry) : Prop :=
  e.id = p.session ∧ e.pid = p.pid ∧ e.cwd = p.cwd ∧ e.maxSeconds = p.maxSeconds ∧ e.startedAt = p.startedAt ∧
    e.status = .running

def Known (sys : System) : Prop := ∀ p ∈ sys.world.procs, p.exit = none → ∃ e ∈ sys.journal, Stands p e

def OnePerFolder (sys : System) : Prop :=
  ∀ p ∈ sys.world.procs, ∀ q ∈ sys.world.procs, p.exit = none → q.exit = none → p.cwd = q.cwd → p = q

def Exceeds (p : Proc) (probe : Probe) : Prop :=
  p.maxSeconds ≤ probe.now - p.startedAt ∨ ∃ size ∈ probe.logSize, maxOutputBytes < size

def Ended (id : String) (sys : System) : Prop := ∀ p ∈ sys.world.procs, p.session = id → p.exit ≠ none

/-- A call for the session of a live process finds it, `cancel` ends it, and the others end it when it is over a limit;
the thread that watches it goes on as long as it lives. -/
def Reaches (size : List Entry → ℕ) (sys : System) (e : Event) : Prop :=
  ∀ p ∈ sys.world.procs, p.exit = none →
    match e with
    | .poll host id probe out disk => id = p.session → ((poll size host id probe out disk sys).1 ≠ none ∧
        (Exceeds p probe → Ended id (poll size host id probe out disk sys).2))
    | .cancel host id reason probe out disk => id = p.session →
        ((cancel size host id reason probe out disk sys).1 ≠ none ∧ Ended id (cancel size host id reason probe out disk sys).2)
    | .list host probes disk => Exceeds p (probes p.session) → Ended p.session (list size host probes disk sys)
    | .watch host id probe disk => id = p.session → ((Exceeds p probe → Ended id (watch size host id probe disk sys)) ∧
        ((host, id) ∈ sys.watchers → Ended id (watch size host id probe disk sys) ∨
          (host, id) ∈ (watch size host id probe disk sys).watchers))
    | _ => True

def Readable (size : List Entry → ℕ) (disk : Disk) (sys : System) : Prop :=
  disk.readable = true ∧ size sys.journal ≤ maxMetadataBytes

def Enforces (p : Proc) (probe : Probe) : Prop := Exceeds p probe → probe.logSize ≠ none ∧ probe.killed = true

/-- The steps of the condition. -/
def Sound (size : List Entry → ℕ) (allowedRoots : List Path) (sys : System) : Event → Prop
  | .start _ s disk => s.Valid allowedRoots → ¬ Active s (read size disk sys) sys.world → s.pid ≠ none →
      disk.writable = true ∧ ∀ p ∈ sys.world.procs, p.exit = none → Readable size disk sys ∧
        ∀ e ∈ sys.journal, e.id = p.session → e ∈ sys.journal.take (maxSessions - 1) ∧ s.resolve e.cwd = e.cwd
  | .poll _ id probe _ disk => ∀ p ∈ sys.world.procs, p.exit = none → p.session = id → Readable size disk sys ∧ Enforces p probe
  | .cancel _ id _ probe _ disk => ∀ p ∈ sys.world.procs, p.exit = none → p.session = id →
      Readable size disk sys ∧ probe.killed = true
  | .list _ probes disk => ∀ p ∈ sys.world.procs, p.exit = none → Readable size disk sys ∧ Enforces p (probes p.session)
  | .watch _ id probe disk => ∀ p ∈ sys.world.procs, p.exit = none → p.session = id → Readable size disk sys ∧ Enforces p probe
  | _ => True

/-! ### The processes -/

section World
variable {host : ℕ} {probe : Probe} {e : Entry} {w w' w'' : World} {p : Proc} {pid : ℕ} {id : String}

def Fewer (w w' : World) : Prop :=
  w'.procs.map Proc.session = w.procs.map Proc.session ∧ ∀ p ∈ w'.procs, p.exit = none → p ∈ w.procs

theorem Fewer.refl (w : World) : Fewer w w := ⟨rfl, fun _ hp _ => hp⟩

theorem Fewer.trans (h : Fewer w w') (h' : Fewer w' w'') : Fewer w w'' :=
  ⟨h'.1.trans h.1, fun p hp hlive => h.2 p (h'.2 p hp hlive) hlive⟩

theorem Fewer.keyed (h : Fewer w w') (hkeyed : Keyed Proc.session w.procs) : Keyed Proc.session w'.procs := by
  rw [Keyed, h.1]
  exact hkeyed

theorem fewer_updateWhere {q : Proc → Prop} [DecidablePred q] {code : ℤ} {handles : List (ℕ × String)} :
    Fewer w { procs := updateWhere q (fun p => { p with exit := some code }) w.procs, handles } := by
  refine ⟨map_updateWhere fun _ _ => rfl, fun p hp hlive => ?_⟩
  obtain ⟨r, hr, rfl⟩ := mem_updateWhere.mp hp
  split_ifs at hlive with hq
  rw [if_neg hq]
  exact hr

theorem pidAlive_of_live {taken : Bool} (hp : p ∈ w.procs) (hlive : p.exit = none) : pidAlive p.pid taken w = true := by
  unfold pidAlive
  rw [Bool.or_eq_true, List.any_eq_true]
  exact Or.inl ⟨p, hp, by simp [hlive]⟩

theorem fewer_stopPid : Fewer w (stopPid pid probe w) := by
  unfold stopPid
  split_ifs
  · exact fewer_updateWhere
  · exact Fewer.refl w

theorem pid_ne_of_stopPid (hkilled : probe.killed = true) (hp : p ∈ (stopPid pid probe w).procs) (hlive : p.exit = none) :
    p.pid ≠ pid := by
  intro hpid
  unfold stopPid at hp
  split_ifs at hp with halive
  · obtain ⟨r, hr, rfl⟩ := mem_updateWhere.mp hp
    split_ifs at hlive with hq
    rw [if_neg hq] at hpid
    exact hq ⟨hpid, hlive⟩
  · exact halive ⟨hpid ▸ pidAlive_of_live hp hlive, hkilled⟩

theorem observe_live {taken : Bool} {known : Option ℤ} (hkeyed : Keyed Proc.session w.procs) (hp : p ∈ w.procs)
    (hlive : p.exit = none) (hstands : Stands p e) : (observe host taken known e w).2 = true := by
  have hexit : exitOf e.id w = none := by
    unfold exitOf
    rw [hstands.1, lookup_key hkeyed hp]
    exact hlive
  unfold observe
  split_ifs
  · simp [hexit]
  · rw [hstands.2.1]
    exact pidAlive_of_live hp hlive

theorem limit_ne_none (hstands : Stands p e) (hpos : 1 ≤ p.maxSeconds) (hlog : probe.logSize ≠ none) (h : Exceeds p probe) :
    limit probe e ≠ none := by
  obtain ⟨-, -, -, hmax, hstarted, -⟩ := hstands
  obtain ⟨size, hsize⟩ := Option.ne_none_iff_exists'.mp hlog
  have hne : p.maxSeconds ≠ 0 := by omega
  unfold limit
  simp only [hsize, hmax, hstarted, hne, if_false]
  rcases h with htime | ⟨n, hn, hlt⟩
  · split_ifs <;> simp
  · obtain rfl : size = n := Option.some.inj (hsize.symm.trans hn)
    simp [hlt]

theorem exceeds_of_limit (hstands : Stands p e) (hpos : 1 ≤ p.maxSeconds) {reason : Status}
    (h : limit probe e = some reason) : Exceeds p probe := by
  obtain ⟨-, -, -, hmax, hstarted, -⟩ := hstands
  have hne : p.maxSeconds ≠ 0 := by omega
  unfold limit at h
  rw [hmax, hstarted, if_neg hne] at h
  cases hlog : probe.logSize with
  | none =>
    simp only [hlog] at h
    have hnot : ¬ p.maxSeconds ≤ 0 := by omega
    simp [hnot] at h
  | some n =>
    simp only [hlog] at h
    split_ifs at h with hsize htime
    · exact Or.inr ⟨n, hlog, hsize⟩
    · exact Or.inl htime

/-- **What a refresh does**: an entry whose process lives is left as it is, and the process is within its limits. -/
theorem refresh_spec (host : ℕ) (hkeyed : Keyed Proc.session w.procs)
    (hstands : ∀ p ∈ w.procs, p.exit = none → p.session = e.id → Stands p e ∧ 1 ≤ p.maxSeconds ∧ Enforces p probe) :
    Fewer w (refresh host probe e w).2 ∧ (refresh host probe e w).1.id = e.id ∧
      ∀ p ∈ (refresh host probe e w).2.procs, p.exit = none → p.session = e.id →
        (refresh host probe e w).1 = e ∧ ¬ Exceeds p probe := by
  by_cases hrunning : e.status = .running
  · simp only [refresh, hrunning, ne_eq, not_true_eq_false, if_false]
    split
    · next code reason halive hlimit =>
      refine ⟨fewer_stopPid, rfl, fun p hp hlive hsession => ?_⟩
      have hp' : p ∈ w.procs := fewer_stopPid.2 p hp hlive
      obtain ⟨hold, hpos, henforces⟩ := hstands p hp' hlive hsession
      have hkilled := (henforces (exceeds_of_limit hold hpos hlimit)).2
      exact absurd hold.2.1.symm (pid_ne_of_stopPid hkilled hp hlive)
    · next code halive hlimit =>
      refine ⟨Fewer.refl w, rfl, fun p hp hlive hsession => ⟨rfl, fun hexceeds => ?_⟩⟩
      obtain ⟨hold, hpos, henforces⟩ := hstands p hp hlive hsession
      exact limit_ne_none hold hpos (henforces hexceeds).1 hexceeds hlimit
    · next code reason halive =>
      refine ⟨Fewer.refl w, rfl, fun p hp hlive hsession => ?_⟩
      have hseen : (observe host probe.taken e.exitCode e w).2 = true :=
        observe_live hkeyed hp hlive (hstands p hp hlive hsession).1
      rw [halive] at hseen
      exact absurd hseen Bool.false_ne_true
  · simp only [refresh, hrunning, ne_eq, not_false_eq_true, if_true]
    refine ⟨Fewer.refl w, trivial, fun p hp hlive hsession => ?_⟩
    exact absurd (hstands p hp hlive hsession).1.2.2.2.2.2 hrunning

end World

/-! ### The journal -/

structure Inv (sys : System) : Prop where
  keyed : Keyed Proc.session sys.world.procs
  pids : ∀ (p q : Proc), p ∈ sys.world.procs → q ∈ sys.world.procs → p.exit = none → q.exit = none → p.pid = q.pid → p = q
  limits : ∀ p ∈ sys.world.procs, p.exit = none → 1 ≤ p.maxSeconds
  ids : Keyed Entry.id sys.journal
  started : ∀ e ∈ sys.journal, ∃ p ∈ sys.world.procs, p.session = e.id
  length : sys.journal.length ≤ maxSessions
  known : Known sys
  folders : OnePerFolder sys

section Journal
variable {size : List Entry → ℕ} {safeValue : String → String} {allowedRoots : List Path} {sys sys' : System}
variable {host : ℕ} {id : String} {probe : Probe} {out : Output} {disk : Disk} {w : World} {e e' : Entry} {p : Proc}

theorem inv_start : Inv {} := by
  refine ⟨List.nodup_nil, ?_, ?_, List.nodup_nil, ?_, Nat.zero_le _, ?_, ?_⟩
  · intro p q hp
    simp at hp
  · intro p hp
    simp at hp
  · intro e he
    simp at he
  · intro p hp
    simp at hp
  · intro p hp
    simp at hp

theorem Inv.fewer (hinv : Inv sys) (hfewer : Fewer sys.world sys'.world)
    (hids : sys'.journal.map Entry.id = sys.journal.map Entry.id)
    (hstands : ∀ p ∈ sys'.world.procs, p.exit = none → ∀ e ∈ sys.journal, Stands p e → ∃ e' ∈ sys'.journal, Stands p e') :
    Inv sys' := by
  refine ⟨hfewer.keyed hinv.keyed, fun p q hp hq hplive hqlive => ?_, fun p hp hlive => ?_, ?_, fun e he => ?_, ?_,
    fun p hp hlive => ?_, fun p hp q hq hplive hqlive => ?_⟩
  · exact hinv.pids p q (hfewer.2 p hp hplive) (hfewer.2 q hq hqlive) hplive hqlive
  · exact hinv.limits p (hfewer.2 p hp hlive) hlive
  · rw [Keyed, hids]
    exact hinv.ids
  · have hmem : e.id ∈ sys.journal.map Entry.id := hids ▸ List.mem_map_of_mem he
    obtain ⟨e₀, he₀, hid⟩ := List.mem_map.mp hmem
    obtain ⟨p, hp, hsession⟩ := hinv.started e₀ he₀
    have hmem' : e.id ∈ sys'.world.procs.map Proc.session := by
      rw [hfewer.1, ← hid, ← hsession]
      exact List.mem_map_of_mem hp
    exact List.mem_map.mp hmem'
  · rw [← List.length_map Entry.id, hids, List.length_map]
    exact hinv.length
  · obtain ⟨e, he, hold⟩ := hinv.known p (hfewer.2 p hp hlive) hlive
    exact hstands p hp hlive e he hold
  · exact hinv.folders p (hfewer.2 p hp hplive) q (hfewer.2 q hq hqlive) hplive hqlive

theorem Inv.stands (hinv : Inv sys) (he : e ∈ sys.journal) (hp : p ∈ sys.world.procs) (hlive : p.exit = none)
    (hsession : p.session = e.id) : Stands p e := by
  obtain ⟨e', he', hstands⟩ := hinv.known p hp hlive
  rw [hinv.ids.eq_of_key he he' (hsession.symm.trans hstands.1.symm)]
  exact hstands

theorem read_sublist : (read size disk sys).Sublist sys.journal := by
  unfold read
  split_ifs
  · exact List.take_sublist _ _
  · exact List.nil_sublist _

theorem Inv.read_eq (hinv : Inv sys) (h : Readable size disk sys) : read size disk sys = sys.journal := by
  have hread : read size disk sys = sys.journal.take maxSessions := if_pos h
  rw [hread]
  exact List.take_of_length_le hinv.length

theorem Inv.lookup_read (hinv : Inv sys) (h : lookup Entry.id id (read size disk sys) = some e) :
    read size disk sys = sys.journal ∧ e ∈ sys.journal ∧ e.id = id := by
  have he := mem_of_lookup h
  refine ⟨?_, read_sublist.subset he, key_of_lookup h⟩
  unfold read at he ⊢
  split_ifs at he ⊢ with hread
  · exact List.take_of_length_le hinv.length
  · simp at he

theorem Inv.lookup_live (hinv : Inv sys) (hread : Readable size disk sys) (hp : p ∈ sys.world.procs) (hlive : p.exit = none) :
    ∃ e, lookup Entry.id p.session (read size disk sys) = some e ∧ e ∈ sys.journal ∧ Stands p e := by
  obtain ⟨e, he, hstands⟩ := hinv.known p hp hlive
  refine ⟨e, ?_, he, hstands⟩
  rw [hinv.read_eq hread, ← hstands.1]
  exact lookup_key hinv.ids he

theorem Inv.written (hinv : Inv sys) (hid : e'.id = e.id) (hfewer : Fewer sys.world w)
    (hlive : ∀ p ∈ w.procs, p.exit = none → p.session = e.id → Stands p e') :
    Inv (write disk (setEntry e' sys.journal) { sys with world := w }) := by
  have hids : (setEntry e' sys.journal).map Entry.id = sys.journal.map Entry.id := map_updateWhere fun _ h => h.symm
  have htake : (setEntry e' sys.journal).take maxSessions = setEntry e' sys.journal :=
    List.take_of_length_le (by rw [setEntry, length_updateWhere]; exact hinv.length)
  unfold write
  split_ifs
  · refine hinv.fewer hfewer ?_ fun p hp hplive x hx hstands => ?_
    · rw [htake]
      exact hids
    · rw [htake]
      by_cases hxe : x.id = e'.id
      · refine ⟨e', mem_updateWhere.mpr ⟨x, hx, if_pos hxe⟩, ?_⟩
        exact hlive p hp hplive (hstands.1.symm.trans (hxe.trans hid))
      · exact ⟨x, mem_updateWhere.mpr ⟨x, hx, if_neg hxe⟩, hstands⟩
  · exact hinv.fewer hfewer rfl fun p _ _ x hx hstands => ⟨x, hx, hstands⟩

theorem Inv.refreshed (hinv : Inv sys) (host : ℕ) (he : e ∈ sys.journal)
    (henforces : ∀ p ∈ sys.world.procs, p.exit = none → p.session = e.id → Enforces p probe) :
    Fewer sys.world (refresh host probe e sys.world).2 ∧ (refresh host probe e sys.world).1.id = e.id ∧
      ∀ p ∈ (refresh host probe e sys.world).2.procs, p.exit = none → p.session = e.id →
        (refresh host probe e sys.world).1 = e ∧ ¬ Exceeds p probe :=
  refresh_spec host hinv.keyed fun p hp hlive hsession =>
    ⟨hinv.stands he hp hlive hsession, hinv.limits p hp hlive, henforces p hp hlive hsession⟩

theorem Inv.polled (hinv : Inv sys)
    (h : ∀ p ∈ sys.world.procs, p.exit = none → p.session = id → Readable size disk sys ∧ Enforces p probe) :
    Inv (poll size host id probe out disk sys).2 := by
  simp only [poll]
  split
  · exact hinv
  · next e hfound =>
    obtain ⟨hread, he, rfl⟩ := hinv.lookup_read hfound
    have hrefreshed := hinv.refreshed host he fun p hp hplive hsession => (h p hp hplive hsession).2
    obtain ⟨hfewer, hid, hlive⟩ := hrefreshed
    rw [hread]
    refine hinv.written hid hfewer fun p hp hplive hsession => ?_
    have hold : Stands p e := hinv.stands he (hfewer.2 p hp hplive) hplive hsession
    rw [(hlive p hp hplive hsession).1]
    exact hold

theorem Inv.cancelled (hinv : Inv sys) {reason : String}
    (h : ∀ p ∈ sys.world.procs, p.exit = none → p.session = id → Readable size disk sys ∧ probe.killed = true) :
    Inv (cancel size host id reason probe out disk sys).2 := by
  simp only [cancel]
  split
  · exact hinv
  · next e hfound =>
    obtain ⟨hread, he, rfl⟩ := hinv.lookup_read hfound
    rw [hread]
    by_cases hrunning : e.status = .running
    · rw [if_pos hrunning]
      refine hinv.written (e := e) rfl fewer_stopPid fun p hp hlive hsession => ?_
      have hp' : p ∈ sys.world.procs := fewer_stopPid.2 p hp hlive
      have hpid : p.pid = e.pid := (hinv.stands he hp' hlive hsession).2.1.symm
      exact absurd hpid (pid_ne_of_stopPid (h p hp' hlive hsession).2 hp hlive)
    · rw [if_neg hrunning]
      refine hinv.written (e := e) rfl (Fewer.refl _) fun p hp hlive hsession => ?_
      exact absurd (hinv.stands he hp hlive hsession).2.2.2.2.2 hrunning

theorem Inv.watched (hinv : Inv sys)
    (h : ∀ p ∈ sys.world.procs, p.exit = none → p.session = id → Readable size disk sys ∧ Enforces p probe) :
    Inv (watch size host id probe disk sys) := by
  have hquiet : ∀ {sys : System}, Inv sys → Inv (unwatch host id sys) := fun hinv =>
    ⟨hinv.keyed, hinv.pids, hinv.limits, hinv.ids, hinv.started, hinv.length, hinv.known, hinv.folders⟩
  simp only [watch]
  split
  · exact hquiet hinv
  · next e hfound =>
    obtain ⟨hread, he, rfl⟩ := hinv.lookup_read hfound
    obtain ⟨hfewer, hid, hlive⟩ := hinv.refreshed host he fun p hp hplive hsession => (h p hp hplive hsession).2
    have hstands : ∀ p ∈ (refresh host probe e sys.world).2.procs, p.exit = none → p.session = e.id →
        Stands p (refresh host probe e sys.world).1 := by
      intro p hp hplive hsession
      rw [(hlive p hp hplive hsession).1]
      exact hinv.stands he (hfewer.2 p hp hplive) hplive hsession
    rw [hread]
    split_ifs
    · exact hquiet hinv
    · exact hinv.fewer hfewer rfl fun p _ _ x hx hx' => ⟨x, hx, hx'⟩
    · exact hquiet (hinv.written hid hfewer hstands)
    · exact hinv.fewer hfewer rfl fun p _ _ x hx hx' => ⟨x, hx, hx'⟩

theorem refreshAll_spec {probes : String → Probe} {entries : List Entry} (hkeyed : Keyed Proc.session w.procs)
    (hstands : ∀ e ∈ entries, ∀ p ∈ w.procs, p.exit = none → p.session = e.id →
      Stands p e ∧ 1 ≤ p.maxSeconds ∧ Enforces p (probes e.id)) :
    Fewer w (refreshAll host probes entries w).2 ∧
      (refreshAll host probes entries w).1.map Entry.id = entries.map Entry.id ∧
      ∀ p ∈ (refreshAll host probes entries w).2.procs, p.exit = none → ∀ e ∈ entries, p.session = e.id →
        e ∈ (refreshAll host probes entries w).1 ∧ ¬ Exceeds p (probes e.id) := by
  induction entries generalizing w with
  | nil =>
    refine ⟨Fewer.refl w, rfl, fun p _ _ e he => ?_⟩
    simp at he
  | cons e entries ih =>
    obtain ⟨hfewer, hid, hlive⟩ := refresh_spec host hkeyed (hstands e List.mem_cons_self)
    obtain ⟨hfewer', hids, hlive'⟩ := ih (hfewer.keyed hkeyed) fun x hx p hp hplive hsession =>
      hstands x (List.mem_cons_of_mem e hx) p (hfewer.2 p hp hplive) hplive hsession
    refine ⟨hfewer.trans hfewer', ?_, fun p hp hplive x hx hsession => ?_⟩
    · simp only [refreshAll, List.map_cons, hid, hids]
    · rcases List.mem_cons.mp hx with rfl | hx
      · obtain ⟨hsame, hwithin⟩ := hlive p (hfewer'.2 p hp hplive) hplive hsession
        refine ⟨?_, hwithin⟩
        simp only [refreshAll, hsame]
        exact List.mem_cons_self
      · obtain ⟨hmem, hwithin⟩ := hlive' p hp hplive x hx hsession
        exact ⟨List.mem_cons_of_mem _ hmem, hwithin⟩

theorem Inv.refreshedAll (hinv : Inv sys) (host : ℕ) {probes : String → Probe}
    (h : ∀ p ∈ sys.world.procs, p.exit = none → Readable size disk sys ∧ Enforces p (probes p.session)) :
    Fewer sys.world (refreshAll host probes (read size disk sys) sys.world).2 ∧
      (refreshAll host probes (read size disk sys) sys.world).1.map Entry.id = (read size disk sys).map Entry.id ∧
      ∀ p ∈ (refreshAll host probes (read size disk sys) sys.world).2.procs, p.exit = none →
        ∀ e ∈ read size disk sys, p.session = e.id →
          e ∈ (refreshAll host probes (read size disk sys) sys.world).1 ∧ ¬ Exceeds p (probes e.id) :=
  refreshAll_spec hinv.keyed fun _ he p hp hlive hsession =>
    ⟨hinv.stands (read_sublist.subset he) hp hlive hsession, hinv.limits p hp hlive, hsession ▸ (h p hp hlive).2⟩

theorem Inv.listed (hinv : Inv sys) {probes : String → Probe}
    (h : ∀ p ∈ sys.world.procs, p.exit = none → Readable size disk sys ∧ Enforces p (probes p.session)) :
    Inv (list size host probes disk sys) := by
  obtain ⟨hfewer, hids, hlive⟩ := hinv.refreshedAll host h
  have hkeep : Inv { sys with world := (refreshAll host probes (read size disk sys) sys.world).2 } :=
    hinv.fewer hfewer rfl fun p _ _ x hx hx' => ⟨x, hx, hx'⟩
  simp only [list, write]
  split_ifs with hchanged hwritable
  · -- the journal was read, since an entry has changed
    have hread : read size disk sys = sys.journal := by
      unfold read at hchanged ⊢
      split_ifs at hchanged ⊢
      · exact List.take_of_length_le hinv.length
      · simp [refreshAll] at hchanged
    rw [hread] at hfewer hids hlive ⊢
    have htake : (refreshAll host probes sys.journal sys.world).1.take maxSessions =
        (refreshAll host probes sys.journal sys.world).1 := by
      refine List.take_of_length_le ?_
      rw [← List.length_map Entry.id, hids, List.length_map]
      exact hinv.length
    rw [htake]
    exact hinv.fewer hfewer hids fun p hp hplive x hx hx' => ⟨x, (hlive p hp hplive x hx hx'.1.symm).1, hx'⟩
  · exact hkeep
  · exact hkeep

/-! ### Starts -/

theorem Inv.mem_read (hinv : Inv sys) {s : Start} (hfresh : s.Fresh sys.world)
    (h : ∀ p ∈ sys.world.procs, p.exit = none → Readable size disk sys ∧
      ∀ e ∈ sys.journal, e.id = p.session → e ∈ sys.journal.take (maxSessions - 1) ∧ s.resolve e.cwd = e.cwd)
    (hp : p ∈ sys.world.procs) (hlive : p.exit = none) :
    ∃ e, Stands p e ∧ e ∈ read size disk sys ∧ s.resolve e.cwd = e.cwd ∧
      e ∈ ((read size disk sys).filter fun e => e.id ≠ s.id).take (maxSessions - 1) := by
  obtain ⟨e, he, hstands⟩ := hinv.known p hp hlive
  obtain ⟨hreadable, hentries⟩ := h p hp hlive
  obtain ⟨hearly, hresolve⟩ := hentries e he hstands.1
  have hall : sys.journal.filter (fun e => e.id ≠ s.id) = sys.journal := by
    refine List.filter_eq_self.mpr fun x hx => ?_
    obtain ⟨q, hq, hsession⟩ := hinv.started x hx
    have hne : x.id ≠ s.id := hsession ▸ hfresh.1 q hq
    simp [hne]
  rw [hinv.read_eq hreadable, hall]
  exact ⟨e, hstands, he, hresolve, hearly⟩

theorem Inv.spawned (hinv : Inv sys) {s : Start} {pid : ℕ} (hpid : s.pid = some pid) (hfresh : s.Fresh sys.world)
    (hvalid : s.Valid allowedRoots) (hfree : ¬ Active s (read size disk sys) sys.world)
    (h : ∀ p ∈ sys.world.procs, p.exit = none → Readable size disk sys ∧
      ∀ e ∈ sys.journal, e.id = p.session → e ∈ sys.journal.take (maxSessions - 1) ∧ s.resolve e.cwd = e.cwd)
    {handles watchers : List (ℕ × String)} :
    Inv { world := { procs := sys.world.procs ++ [s.proc pid], handles }
          journal := (s.entry safeValue pid :: (read size disk sys).filter fun e => e.id ≠ s.id).take maxSessions
          watchers } := by
  have hcons : (s.entry safeValue pid :: (read size disk sys).filter fun e => e.id ≠ s.id).take maxSessions =
      s.entry safeValue pid :: ((read size disk sys).filter fun e => e.id ≠ s.id).take (maxSessions - 1) :=
    List.take_succ_cons
  have hsub : (((read size disk sys).filter fun e => e.id ≠ s.id).take (maxSessions - 1)).Sublist sys.journal :=
    (List.take_sublist _ _).trans (List.filter_sublist.trans read_sublist)
  have hnew : ∀ p ∈ sys.world.procs, p.exit = none → p.pid ≠ pid ∧ p.cwd ≠ s.cwd := by
    intro p hp hlive
    refine ⟨fun heq => hfresh.2 p hp hlive (hpid.trans (congrArg some heq.symm)), fun heq => hfree ?_⟩
    obtain ⟨e, hstands, he, hresolve, -⟩ := hinv.mem_read hfresh h hp hlive
    refine ⟨e, he, hstands.2.2.2.2.2, hresolve.trans (hstands.2.2.1.trans heq), ?_⟩
    rw [hstands.2.1]
    exact pidAlive_of_live hp hlive
  rw [hcons]
  refine ⟨?_, fun p q hp hq hplive hqlive heq => ?_, fun p hp hlive => ?_, ?_, fun e he => ?_, ?_, fun p hp hlive => ?_,
    fun p hp q hq hplive hqlive heq => ?_⟩
  · refine keyed_append.mpr ⟨hinv.keyed, List.nodup_singleton _, fun p hp q hq => ?_⟩
    rw [List.mem_singleton.mp hq]
    exact hfresh.1 p hp
  · rcases List.mem_append.mp hp with hp | hp
    · rcases List.mem_append.mp hq with hq | hq
      · exact hinv.pids p q hp hq hplive hqlive heq
      · rw [List.mem_singleton.mp hq] at heq
        exact absurd heq (hnew p hp hplive).1
    · rcases List.mem_append.mp hq with hq | hq
      · rw [List.mem_singleton.mp hp] at heq
        exact absurd heq.symm (hnew q hq hqlive).1
      · exact (List.mem_singleton.mp hp).trans (List.mem_singleton.mp hq).symm
  · rcases List.mem_append.mp hp with hp | hp
    · exact hinv.limits p hp hlive
    · rw [List.mem_singleton.mp hp]
      exact hvalid.2.2.2.2.2.2.1
  · refine List.nodup_cons.mpr ⟨fun hmem => ?_, hinv.ids.sublist (hsub.map Entry.id)⟩
    obtain ⟨e, he, hid⟩ := List.mem_map.mp hmem
    have hne := (List.mem_filter.mp (List.mem_of_mem_take he)).2
    exact of_decide_eq_true hne hid
  · rcases List.mem_cons.mp he with rfl | he
    · exact ⟨s.proc pid, List.mem_append_right _ (List.mem_singleton_self _), rfl⟩
    · obtain ⟨p, hp, hsession⟩ := hinv.started e (hsub.subset he)
      exact ⟨p, List.mem_append_left _ hp, hsession⟩
  · rw [List.length_cons]
    have hle := List.length_take_le (maxSessions - 1) ((read size disk sys).filter fun e => e.id ≠ s.id)
    have hpos : 1 ≤ maxSessions := by decide
    omega
  · rcases List.mem_append.mp hp with hp | hp
    · obtain ⟨e, hstands, -, -, hmem⟩ := hinv.mem_read hfresh h hp hlive
      exact ⟨e, List.mem_cons_of_mem _ hmem, hstands⟩
    · rw [List.mem_singleton.mp hp]
      exact ⟨s.entry safeValue pid, List.mem_cons_self, rfl, rfl, rfl, rfl, rfl, rfl⟩
  · rcases List.mem_append.mp hp with hp | hp
    · rcases List.mem_append.mp hq with hq | hq
      · exact hinv.folders p hp q hq hplive hqlive heq
      · rw [List.mem_singleton.mp hq] at heq
        exact absurd heq (hnew p hp hplive).2
    · rcases List.mem_append.mp hq with hq | hq
      · rw [List.mem_singleton.mp hp] at heq
        exact absurd heq.symm (hnew q hq hqlive).2
      · exact (List.mem_singleton.mp hp).trans (List.mem_singleton.mp hq).symm

/-- **Every step of the condition keeps the invariant.** -/
theorem inv_step (sys : System) (e : Event) (hinv : Inv sys) (h : Sound size allowedRoots sys e) :
    Inv (step size safeValue allowedRoots sys e) := by
  cases e with
  | exit id code =>
    exact hinv.fewer fewer_updateWhere rfl fun p _ _ x hx hx' => ⟨x, hx, hx'⟩
  | crash host =>
    exact ⟨hinv.keyed, hinv.pids, hinv.limits, hinv.ids, hinv.started, hinv.length, hinv.known, hinv.folders⟩
  | start host s disk =>
    simp only [step]
    split_ifs with hfresh
    · simp only [start]
      by_cases hstart : s.Valid allowedRoots ∧ ¬ Active s (read size disk sys) sys.world
      · rw [if_pos hstart]
        split
        · next pid hpid =>
          obtain ⟨hvalid, hfree⟩ := hstart
          obtain ⟨hwritable, hentries⟩ := h hvalid hfree (by simp [hpid])
          simp only [write, hwritable, if_true]
          exact hinv.spawned hpid hfresh hvalid hfree hentries
        · exact hinv
      · rw [if_neg hstart]
        exact hinv
    · exact hinv
  | poll host id probe out disk => exact hinv.polled h
  | cancel host id reason probe out disk => exact hinv.cancelled h
  | list host probes disk => exact hinv.listed h
  | watch host id probe disk =>
    simp only [step]
    split_ifs
    · exact hinv.watched h
    · exact hinv

/-! ### What a call reaches -/

theorem Inv.ended (hinv : Inv sys) (hfewer : Fewer sys.world sys'.world) (hp : p ∈ sys.world.procs)
    (h : p ∈ sys'.world.procs → p.exit = none → False) : Ended p.session sys' := by
  intro q hq hsession hlive
  obtain rfl : q = p := hinv.keyed.eq_of_key (hfewer.2 q hq hlive) hp hsession
  exact h hq hlive

theorem write_world {entries : List Entry} : (write disk entries sys).world = sys.world := by
  unfold write
  split_ifs
  · rfl
  · rfl

theorem Inv.reaches_poll (hinv : Inv sys) (hp : p ∈ sys.world.procs) (hlive : p.exit = none)
    (h : ∀ q ∈ sys.world.procs, q.exit = none → q.session = p.session → Readable size disk sys ∧ Enforces q probe) :
    (poll size host p.session probe out disk sys).1 ≠ none ∧
      (Exceeds p probe → Ended p.session (poll size host p.session probe out disk sys).2) := by
  obtain ⟨e, hfound, he, hstands⟩ := hinv.lookup_live (h p hp hlive rfl).1 hp hlive
  obtain ⟨hfewer, -, hwithin⟩ := hinv.refreshed host he fun q hq hqlive hsession =>
    (h q hq hqlive (hsession.trans hstands.1)).2
  simp only [poll, hfound]
  refine ⟨Option.some_ne_none _, fun hexceeds => hinv.ended ?_ hp fun hq hqlive => ?_⟩
  · rw [write_world]
    exact hfewer
  · rw [write_world] at hq
    exact (hwithin p hq hqlive hstands.1.symm).2 hexceeds

theorem Inv.reaches_cancel (hinv : Inv sys) {reason : String} (hp : p ∈ sys.world.procs) (hlive : p.exit = none)
    (h : ∀ q ∈ sys.world.procs, q.exit = none → q.session = p.session → Readable size disk sys ∧ probe.killed = true) :
    (cancel size host p.session reason probe out disk sys).1 ≠ none ∧
      Ended p.session (cancel size host p.session reason probe out disk sys).2 := by
  obtain ⟨hread, hkilled⟩ := h p hp hlive rfl
  obtain ⟨e, hfound, he, hstands⟩ := hinv.lookup_live hread hp hlive
  simp only [cancel, hfound, hstands.2.2.2.2.2, if_true]
  refine ⟨Option.some_ne_none _, hinv.ended ?_ hp fun hq hqlive => ?_⟩
  · rw [write_world]
    exact fewer_stopPid
  · rw [write_world] at hq
    exact pid_ne_of_stopPid hkilled hq hqlive hstands.2.1.symm

theorem Inv.reaches_list (hinv : Inv sys) {probes : String → Probe} (hp : p ∈ sys.world.procs) (hlive : p.exit = none)
    (h : ∀ p ∈ sys.world.procs, p.exit = none → Readable size disk sys ∧ Enforces p (probes p.session))
    (hexceeds : Exceeds p (probes p.session)) : Ended p.session (list size host probes disk sys) := by
  obtain ⟨e, hfound, -, hstands⟩ := hinv.lookup_live (h p hp hlive).1 hp hlive
  obtain ⟨hfewer, -, hwithin⟩ := hinv.refreshedAll host h
  have hworld : (list size host probes disk sys).world = (refreshAll host probes (read size disk sys) sys.world).2 := by
    simp only [list]
    split_ifs
    · exact write_world
    · rfl
  refine hinv.ended ?_ hp fun hq hqlive => ?_
  · rw [hworld]
    exact hfewer
  · rw [hworld] at hq
    refine (hwithin p hq hqlive e (mem_of_lookup hfound) hstands.1.symm).2 ?_
    rw [hstands.1]
    exact hexceeds

theorem Inv.reaches_watch (hinv : Inv sys) (hp : p ∈ sys.world.procs) (hlive : p.exit = none)
    (h : ∀ q ∈ sys.world.procs, q.exit = none → q.session = p.session → Readable size disk sys ∧ Enforces q probe) :
    (Exceeds p probe → Ended p.session (watch size host p.session probe disk sys)) ∧
      ((host, p.session) ∈ sys.watchers → Ended p.session (watch size host p.session probe disk sys) ∨
        (host, p.session) ∈ (watch size host p.session probe disk sys).watchers) := by
  obtain ⟨e, hfound, he, hstands⟩ := hinv.lookup_live (h p hp hlive rfl).1 hp hlive
  obtain ⟨hfewer, -, hwithin⟩ := hinv.refreshed host he fun q hq hqlive hsession =>
    (h q hq hqlive (hsession.trans hstands.1)).2
  have hworld : (watch size host p.session probe disk sys).world = (refresh host probe e sys.world).2 := by
    simp only [watch, hfound, hstands.2.2.2.2.2, ne_eq, not_true_eq_false, if_false]
    split_ifs
    · rfl
    · exact write_world
    · rfl
  have hfewer' : Fewer sys.world (watch size host p.session probe disk sys).world := by
    rw [hworld]
    exact hfewer
  refine ⟨fun hexceeds => hinv.ended hfewer' hp fun hq hqlive => ?_, fun hwatches => ?_⟩
  · rw [hworld] at hq
    exact (hwithin p hq hqlive hstands.1.symm).2 hexceeds
  · by_cases hgone : (refresh host probe e sys.world).1.status = .running
    · refine Or.inr ?_
      simp only [watch, hfound, hstands.2.2.2.2.2, ne_eq, not_true_eq_false, if_false, hgone, if_true]
      exact hwatches
    · refine Or.inl (hinv.ended hfewer' hp fun hq hqlive => hgone ?_)
      rw [hworld] at hq
      rw [(hwithin p hq hqlive hstands.1.symm).1]
      exact hstands.2.2.2.2.2

theorem Inv.reaches (hinv : Inv sys) {e : Event} (h : Sound size allowedRoots sys e) : Reaches size sys e := by
  intro p hp hlive
  cases e with
  | poll host id probe out disk =>
    rintro rfl
    exact hinv.reaches_poll hp hlive h
  | cancel host id reason probe out disk =>
    rintro rfl
    exact hinv.reaches_cancel hp hlive h
  | list host probes disk => exact hinv.reaches_list hp hlive h
  | watch host id probe disk =>
    rintro rfl
    exact hinv.reaches_watch hp hlive h
  | _ => trivial

end Journal

/-- **No live process is forgotten** in a run in which the journal can be read, a start writes it and drops no entry of a
live process, the folders stay in their places, and what is to be stopped is stopped. -/
theorem terminals (size : List Entry → ℕ) (safeValue : String → String) (allowedRoots : List Path) {events : List Event}
    (h : Along (step size safeValue allowedRoots) (Sound size allowedRoots) {} events) :
    (∀ pre, pre <+: events → Known (run (step size safeValue allowedRoots) {} pre) ∧
      OnePerFolder (run (step size safeValue allowedRoots) {} pre)) ∧
      Along (step size safeValue allowedRoots) (Reaches size) {} events := by
  refine ⟨?_, along_of_inv inv_step (fun s e hinv hs => hinv.reaches hs) inv_start h⟩
  rintro pre ⟨post, rfl⟩
  have hpre : Along (step size safeValue allowedRoots) (Sound size allowedRoots) {} pre := (along_append.mp h).1
  have hinv : Inv (run (step size safeValue allowedRoots) {} pre) := inv_run inv_step inv_start hpre
  exact ⟨hinv.known, hinv.folders⟩

/-- A start of `sleep` in the folder `w`. -/
def sleep (id : String) (pid : ℕ) : Event := .start 0 { argv := ["sleep", "60"], cwd := ["w"], id, pid := some pid, now := 0 } {}

/-- A process is polled after its time. -/
theorem terminals_sleep : Along (step (fun _ => 0) id []) (Reaches fun _ => 0) {}
    [sleep "term_1" 7, .poll 0 "term_1" { now := 1000, logSize := some 0 } ⟨0, 0, ""⟩ {}] := by
  have h : Along (step (fun _ => 0) id []) (Sound (fun _ => 0) []) {}
      [sleep "term_1" 7, .poll 0 "term_1" { now := 1000, logSize := some 0 } ⟨0, 0, ""⟩ {}] := by
    refine ⟨fun _ _ _ => ⟨rfl, fun p hp => ?_⟩, fun p hp hlive hsession => ⟨⟨rfl, Nat.zero_le _⟩, fun _ => ?_⟩, trivial⟩
    · simp at hp
    · exact ⟨Option.some_ne_none _, rfl⟩
  exact (terminals (fun _ => 0) id [] h).2

/-- A process that was not killed, and one that is started beside it. -/
theorem not_terminals : ¬ ∀ (size : List Entry → ℕ) (safeValue : String → String) (allowedRoots : List Path)
    (events : List Event), (∀ pre, pre <+: events → Known (run (step size safeValue allowedRoots) {} pre) ∧
      OnePerFolder (run (step size safeValue allowedRoots) {} pre)) ∧
      Along (step size safeValue allowedRoots) (Reaches size) {} events := by
  intro h
  have hend := ((h (fun _ => 0) id [] [sleep "term_1" 7,
    .cancel 0 "term_1" "stop" { now := 1, logSize := some 0, killed := false } ⟨0, 0, ""⟩ {},
    sleep "term_2" 8]).1 _ (List.prefix_refl _)).2
  have hprocs : (run (step (fun _ => 0) id []) {} [sleep "term_1" 7,
      .cancel 0 "term_1" "stop" { now := 1, logSize := some 0, killed := false } ⟨0, 0, ""⟩ {},
      sleep "term_2" 8]).world.procs = [⟨"term_1", 7, ["w"], 900, 0, none⟩, ⟨"term_2", 8, ["w"], 900, 0, none⟩] := by
    decide
  have heq := hend ⟨"term_1", 7, ["w"], 900, 0, none⟩ (by rw [hprocs]; simp) ⟨"term_2", 8, ["w"], 900, 0, none⟩
    (by rw [hprocs]; simp) rfl rfl rfl
  exact absurd (congrArg Proc.pid heq) (by decide)

end Smara.Desktop.Terminals
