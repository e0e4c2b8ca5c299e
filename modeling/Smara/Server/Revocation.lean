import Smara.Server.Bridge

/-! # Jobs and revoked devices

Each job is handed to one device, once, and a result is taken while the job is with a device. That the result
comes from this device, and that a revoked device gets nothing more, depends on the requests that were
authorized before the device was revoked, and on the shop having one device only.

* `once`, `bound`: the two laws of the log.
* `Heeds`: a claim is by a device that is not revoked, and a result from the device that has the job.
* `results_bound_iff`: the log is lawful exactly when each step of the run heeds this. -/

namespace Smara.Server.Bridge

open Lib.Chronicle Lib.Machine Lib.Table

def Event.job? : Event → Option String
  | .handed job _ | .taken job _ | .expired job => some job
  | .revoked _ => none

/-- A job is handed out once, and one result is taken, between this and the end of the job. -/
def once (pre : List Event) : Event → Prop
  | .handed job _ => ∀ d, .handed job d ∉ pre
  | .taken job _ => (∃ d, .handed job d ∈ pre) ∧ .expired job ∉ pre ∧ ∀ d, .taken job d ∉ pre
  | .expired _ | .revoked _ => True

/-- What a device gets or gives is its own, and it is not revoked. -/
def bound (pre : List Event) : Event → Prop
  | .handed _ device => .revoked device ∉ pre
  | .taken job device => .handed job device ∈ pre ∧ .revoked device ∉ pre
  | .expired _ | .revoked _ => True

def Revoked (devices : List Device) (device : String) : Prop := ∃ d ∈ devices, d.id = device ∧ d.revoked ≠ none

variable (host : Host) in
/-- A claim that finds a job is by a device that is not revoked, and a result that is taken is from the device that
has the job, and that is not revoked. -/
def Heeds (s : State) : Op → Prop
  | .goOn call a =>
    match s.calls[call]? with
    | some (.poll _ c) => (nextJob s.now c.tenant a.locked s.jobs).isSome → ¬ Revoked s.devices c.device
    | some (.result c job result) =>
      host.isJson (cut result) → ∀ j ∈ s.jobs, Finishable c job j →
        j.device = some c.device ∧ ¬ Revoked s.devices c.device
    | _ => True
  | _ => True

/-! ### What the tables say of the log -/

variable {host : Host} {s : State} {jobs : List BridgeJob} {devices : List Device} {log l : List Event}

/-- What a job that is not settled says of the log. -/
structure Tells (log : List Event) (j : BridgeJob) : Prop where
  handed : ∀ d, .handed j.id d ∈ log ↔ j.status = .claimed ∧ j.device = some d
  holder : j.status = .claimed → j.device ≠ none
  expired : .expired j.id ∉ log
  taken : ∀ d, .taken j.id d ∉ log

structure Recorded (jobs : List BridgeJob) (log : List Event) : Prop where
  keyed : Keyed BridgeJob.id jobs
  known : ∀ e ∈ log, ∀ id ∈ e.job?, ∃ j ∈ jobs, j.id = id
  tells : ∀ j ∈ jobs, Open j → Tells log j

structure Inv (s : State) : Prop where
  recorded : Recorded s.jobs s.log
  revoked : ∀ d, .revoked d ∈ s.log ↔ Revoked s.devices d

theorem Tells.append {j : BridgeJob} (h : Tells log j) (hl : ∀ e ∈ l, e.job? ≠ some j.id) :
    Tells (log ++ l) j := by
  have hnot (e : Event) (he : e.job? = some j.id) : e ∈ log ++ l ↔ e ∈ log := by
    rw [List.mem_append]
    exact or_iff_left fun hmem => hl e hmem he
  refine ⟨fun d => ?_, h.holder, ?_, fun d => ?_⟩
  · rw [hnot _ rfl]
    exact h.handed d
  · rw [hnot _ rfl]
    exact h.expired
  · rw [hnot _ rfl]
    exact h.taken d

theorem Recorded.update (h : Recorded jobs log) {p : BridgeJob → Prop} [DecidablePred p]
    {f : BridgeJob → BridgeJob} (hid : ∀ j, (f j).id = j.id)
    (hknown : ∀ e ∈ l, ∀ id ∈ e.job?, ∃ j ∈ jobs, j.id = id ∧ p j)
    (htells : ∀ j ∈ jobs, p j → Open (f j) → Tells (log ++ l) (f j)) :
    Recorded (updateWhere p f jobs) (log ++ l) := by
  have hkeyed : Keyed BridgeJob.id (updateWhere p f jobs) := (keyed_updateWhere fun j _ => hid j).mpr h.keyed
  refine ⟨hkeyed, fun e he id hjob => ?_, ?_⟩
  · obtain ⟨j, hj, rfl⟩ : ∃ j ∈ jobs, j.id = id := by
      rcases List.mem_append.mp he with he | he
      · exact h.known e he id hjob
      · obtain ⟨j, hj, heq, -⟩ := hknown e he id hjob
        exact ⟨j, hj, heq⟩
    refine ⟨_, mem_updateWhere.mpr ⟨j, hj, rfl⟩, ?_⟩
    split_ifs
    · exact hid j
    · rfl
  · rintro j' hj' hopen
    obtain ⟨j, hj, rfl⟩ := mem_updateWhere.mp hj'
    split_ifs at hopen ⊢ with hp
    · exact htells j hj hp hopen
    · refine (h.tells j hj hopen).append fun e he hjob => hp ?_
      obtain ⟨j', hj', heq, hp'⟩ := hknown e he j.id hjob
      rwa [← h.keyed.eq_of_key hj' hj heq]

theorem Recorded.insert (h : Recorded jobs log) {j : BridgeJob} (hnew : ∀ j' ∈ jobs, j'.id ≠ j.id)
    (hstatus : j.status = .pending) : Recorded (jobs ++ [j]) log := by
  have hnone (e : Event) (he : e.job? = some j.id) : e ∉ log := fun hmem => by
    obtain ⟨j', hj', heq⟩ := h.known e hmem j.id he
    exact hnew j' hj' heq
  refine ⟨?_, fun e he id hid => ?_, fun j' hj' hopen => ?_⟩
  · refine keyed_append.mpr ⟨h.keyed, List.nodup_singleton _, fun j' hj' j'' hj'' => ?_⟩
    rw [List.mem_singleton.mp hj'']
    exact hnew j' hj'
  · obtain ⟨j', hj', heq⟩ := h.known e he id hid
    exact ⟨j', List.mem_append_left _ hj', heq⟩
  · rcases List.mem_append.mp hj' with hj' | hj'
    · exact h.tells j' hj' hopen
    · obtain rfl := List.mem_singleton.mp hj'
      refine ⟨fun d => ?_, ?_, hnone _ rfl, fun d => hnone _ rfl⟩
      · simp [hnone (.handed j'.id d) rfl, hstatus]
      · simp [hstatus]

/-! ### The transactions -/

theorem of_nextJob {now : TaskStore.Schema.Time} {tenant : String} {locked : List String} {j : BridgeJob}
    (h : nextJob now tenant locked jobs = some j) : j ∈ jobs ∧ j.status = .pending := by
  have hmem : j ∈ jobs ∧ Claimable now tenant locked j := by simpa using mem_of_firstBy h
  exact ⟨hmem.1, hmem.2.2.1⟩

theorem recorded_claimJob (h : Recorded jobs log) {j : BridgeJob} (hj : j ∈ jobs) (hpending : j.status = .pending)
    (c : Client) : Recorded (claimJob c j.id jobs) (log ++ [.handed j.id c.device]) := by
  have htells := h.tells j hj (Or.inl hpending)
  refine h.update (fun _ => rfl) ?_ ?_
  · rintro e he id hid
    obtain rfl := List.mem_singleton.mp he
    obtain rfl : j.id = id := by simpa [Event.job?] using hid
    exact ⟨j, hj, rfl, rfl⟩
  · rintro j' hj' heq -
    obtain rfl := h.keyed.eq_of_key hj' hj heq
    refine ⟨fun d => ?_, by simp, by simpa using htells.expired, by simpa using htells.taken⟩
    have hnone : .handed j'.id d ∉ log := by simp [htells.handed, hpending]
    simp [hnone, eq_comm]

theorem recorded_finishJob (h : Recorded jobs log) {c : Client} {id : String}
    (hex : ∃ j ∈ jobs, Finishable c id j) (result : String) :
    Recorded (finishJob c id result jobs) (log ++ [.taken id c.device]) := by
  obtain ⟨j, hj, hfin⟩ := hex
  refine h.update (fun _ => rfl) ?_ ?_
  · rintro e he id' hid
    obtain rfl := List.mem_singleton.mp he
    obtain rfl : id = id' := by simpa [Event.job?] using hid
    exact ⟨j, hj, hfin.1, hfin⟩
  · intro j' _ _ hopen
    simp [Open] at hopen

theorem not_open_expire (j : BridgeJob) : ¬ Open (expire j) := by simp [Open, expire]

theorem recorded_expireJob (h : Recorded jobs log) (id : String) : Recorded (expireJob id jobs)
    (if ∃ j ∈ jobs, j.id = id ∧ Open j then log ++ [.expired id] else log) := by
  split_ifs with hex
  · obtain ⟨j, hj, hp⟩ := hex
    refine h.update (fun _ => rfl) ?_ fun j _ _ hopen => absurd hopen (not_open_expire j)
    rintro e he id' hid
    obtain rfl := List.mem_singleton.mp he
    obtain rfl : id = id' := by simpa [Event.job?] using hid
    exact ⟨j, hj, hp.1, hp⟩
  · have hself : expireJob id jobs = jobs :=
      updateWhere_eq_self fun j hj hp => hex ⟨j, hj, hp⟩
    rwa [hself]

theorem recorded_revokeAll (h : Recorded jobs log) (tenant : String) (spared ids : List String) :
    Recorded (updateWhere (Expires tenant spared) expire jobs)
      (log ++ (ids.map Event.revoked) ++ (jobs.filter fun j => Expires tenant spared j).map fun j => .expired j.id) := by
  rw [List.append_assoc]
  refine h.update (fun _ => rfl) ?_ fun j _ _ hopen => absurd hopen (not_open_expire j)
  intro e he id hid
  rcases List.mem_append.mp he with he | he
  · obtain ⟨d, -, rfl⟩ := List.mem_map.mp he
    simp [Event.job?] at hid
  · obtain ⟨j, hj, rfl⟩ := List.mem_map.mp he
    obtain ⟨hj, hp⟩ : j ∈ jobs ∧ Expires tenant spared j := by simpa using hj
    obtain rfl : j.id = id := by simpa [Event.job?] using hid
    exact ⟨j, hj, rfl, hp⟩

theorem revoked_updateWhere {p : Device → Prop} [DecidablePred p] {f : Device → Device} (hid : ∀ d, (f d).id = d.id)
    (hrevoked : ∀ d, (f d).revoked = d.revoked) (device : String) :
    Revoked (updateWhere p f devices) device ↔ Revoked devices device := by
  have heq (d : Device) : ((if p d then f d else d).id = device ∧ (if p d then f d else d).revoked ≠ none) ↔
      (d.id = device ∧ d.revoked ≠ none) := by
    split_ifs
    · rw [hid, hrevoked]
    · rfl
  constructor
  · rintro ⟨d', hd', h⟩
    obtain ⟨d, hd, rfl⟩ := mem_updateWhere.mp hd'
    exact ⟨d, hd, (heq d).mp h⟩
  · rintro ⟨d, hd, h⟩
    exact ⟨_, mem_updateWhere.mpr ⟨d, hd, rfl⟩, (heq d).mpr h⟩

theorem revoked_deviceForToken (now : TaskStore.Schema.Time) (tokenHash device : String) :
    Revoked (deviceForToken now tokenHash devices).2 device ↔ Revoked devices device :=
  revoked_updateWhere (f := fun d => { d with lastSeen := now }) (fun _ => rfl) (fun _ => rfl) device

theorem revoked_revokeAll (now : TaskStore.Schema.Time) (tenant : String) (spared : List String) (device : String) :
    Revoked (updateWhere (Revokes tenant spared) (fun d => { d with revoked := some now }) devices) device ↔
      Revoked devices device ∨ ∃ d ∈ devices, Revokes tenant spared d ∧ d.id = device := by
  constructor
  · rintro ⟨d', hd', hid, hrev⟩
    obtain ⟨d, hd, rfl⟩ := mem_updateWhere.mp hd'
    split_ifs at hid hrev with hp
    · exact Or.inr ⟨d, hd, hp, hid⟩
    · exact Or.inl ⟨d, hd, hid, hrev⟩
  · rintro (⟨d, hd, rfl, hrev⟩ | ⟨d, hd, hp, rfl⟩)
    · refine ⟨_, mem_updateWhere.mpr ⟨d, hd, rfl⟩, ?_⟩
      have hnot : ¬ Revokes tenant spared d := fun h => hrev h.1.2
      rw [if_neg hnot]
      exact ⟨rfl, hrev⟩
    · refine ⟨_, mem_updateWhere.mpr ⟨d, hd, rfl⟩, ?_⟩
      rw [if_pos hp]
      exact ⟨rfl, nofun⟩

/-! ### One step -/

theorem inv_start (now : TaskStore.Schema.Time) : Inv { now } :=
  ⟨⟨List.nodup_nil, by simp, by simp⟩, by simp [Revoked]⟩

theorem inv_revokeAll (h : Inv s) (tenant : String) (spared : List String) : Inv (revokeAll tenant spared s) := by
  refine ⟨?_, fun d => ?_⟩
  · have := recorded_revokeAll h.recorded tenant spared
      ((s.devices.filter fun d => Revokes tenant spared d).map Device.id)
    simpa only [revokeAll, List.map_map, Function.comp_def] using this
  · dsimp only [revokeAll]
    rw [revoked_revokeAll, ← h.revoked]
    simp [and_assoc]

theorem inv_authorized (h : Inv s) (token : String) (call : Client → Call) : Inv (authorized host token call s) := by
  have hdevices (d : String) : .revoked d ∈ s.log ↔
      Revoked (deviceForToken s.now (host.hash token) s.devices).2 d := by
    rw [revoked_deviceForToken]
    exact h.revoked d
  unfold authorized
  dsimp only
  split
  · exact h
  · exact ⟨h.recorded, hdevices⟩

theorem inv_completePairing (h : Inv s) (code token id : String) : Inv (completePairing host code token id s) := by
  unfold completePairing
  dsimp only
  split
  · exact h
  · split_ifs with hkey
    · exact h
    · refine ⟨h.recorded, fun d => ?_⟩
      rw [h.revoked]
      simp [Revoked]

theorem revoked_append (h : ∀ d, .revoked d ∈ s.log ↔ Revoked s.devices d) (hl : ∀ d, .revoked d ∉ l) (d : String) :
    .revoked d ∈ s.log ++ l ↔ Revoked s.devices d := by
  rw [List.mem_append, h]
  exact or_iff_left (hl d)

theorem inv_goOn (h : Inv s) (a : Answer) (c : Call) : Inv (goOn host a s c) := by
  cases c with
  | poll token c =>
    dsimp only [goOn]
    split
    · next j hj =>
      obtain ⟨hmem, hpending⟩ := of_nextJob hj
      exact ⟨recorded_claimJob h.recorded hmem hpending c, revoked_append h.revoked (by simp)⟩
    · split_ifs
      · exact h
      · exact ⟨h.recorded, h.revoked⟩
  | refresh token c =>
    refine ⟨h.recorded, fun d => ?_⟩
    dsimp only [goOn]
    rw [revoked_deviceForToken]
    exact h.revoked d
  | result c job result =>
    dsimp only [goOn]
    split_ifs with hfin
    · exact ⟨recorded_finishJob h.recorded hfin.2 result, revoked_append h.revoked (by simp)⟩
    · exact h
  | create tenant sessionId command =>
    dsimp only [goOn]
    split_ifs with hkey
    · exact h
    · push Not at hkey
      exact ⟨h.recorded.insert hkey rfl, h.revoked⟩
  | wait job =>
    dsimp only [goOn]
    split_ifs with hlate hopen
    · refine ⟨?_, ?_⟩
      · have := recorded_expireJob h.recorded job
        rwa [if_pos hopen] at this
      · exact revoked_append h.revoked (by simp)
    · refine ⟨?_, h.revoked⟩
      have := recorded_expireJob h.recorded job
      rwa [if_neg hopen] at this
    · exact h
    · exact ⟨h.recorded, h.revoked⟩

theorem Inv.withCalls (h : Inv s) (calls : List Call) : Inv { s with calls } := ⟨h.recorded, h.revoked⟩

theorem inv_step (h : Inv s) (op : Op) : Inv (step host s op) := by
  cases op with
  | pass elapsed => exact ⟨h.recorded, h.revoked⟩
  | startPairing tenant code => exact ⟨h.recorded, h.revoked⟩
  | pair code token id => exact inv_completePairing h code token id
  | poll token => exact inv_authorized h token _
  | result token job result => exact inv_authorized h token _
  | runPcTool tenant sessionId command =>
    dsimp only [step]
    split_ifs
    · exact h.withCalls _
    · exact h
  | revokeAll tenant spared => exact inv_revokeAll h tenant spared
  | goOn call a =>
    dsimp only [step]
    split
    · exact h
    · exact inv_goOn (h.withCalls _) a _
  | drop call => exact h.withCalls _

/-- What a step adds to the log is lawful, if it is a claim of a job by a device that is not revoked, or a result
from the device that has the job. -/
theorem once_goOn (h : Inv s) (a : Answer) (c : Call) :
    Lawful once (goOn host a s c).log ↔ Lawful once s.log := by
  cases c with
  | poll token c =>
    dsimp only [goOn]
    split
    · next j hj =>
      obtain ⟨hmem, hpending⟩ := of_nextJob hj
      have htells := h.recorded.tells j hmem (Or.inl hpending)
      refine lawful_snoc.trans (and_iff_left fun d hd => ?_)
      have hclaimed := ((htells.handed d).mp hd).1
      rw [hpending] at hclaimed
      cases hclaimed
    · split_ifs <;> exact Iff.rfl
  | refresh token c => exact Iff.rfl
  | result c job result =>
    dsimp only [goOn]
    split_ifs with hfin
    · obtain ⟨-, j, hj, rfl, -, hclaimed⟩ := hfin
      have htells := h.recorded.tells j hj (Or.inr hclaimed)
      obtain ⟨d, hd⟩ := Option.ne_none_iff_exists'.mp (htells.holder hclaimed)
      have hhanded : ∃ d, .handed j.id d ∈ s.log := ⟨d, (htells.handed d).mpr ⟨hclaimed, hd⟩⟩
      exact lawful_snoc.trans (and_iff_left ⟨hhanded, htells.expired, htells.taken⟩)
    · exact Iff.rfl
  | create tenant sessionId command =>
    dsimp only [goOn]
    split_ifs <;> exact Iff.rfl
  | wait job =>
    dsimp only [goOn]
    split_ifs
    · exact lawful_snoc.trans (and_iff_left trivial)
    · exact Iff.rfl
    · exact Iff.rfl
    · exact Iff.rfl

theorem bound_goOn (h : Inv s) {call : ℕ} {c : Call} (hcall : s.calls[call]? = some c) (a : Answer)
    (calls : List Call) :
    Lawful bound (goOn host a { s with calls } c).log ↔ Lawful bound s.log ∧ Heeds host s (.goOn call a) := by
  unfold Heeds
  simp only [hcall]
  cases c with
  | poll token c =>
    dsimp only [goOn]
    cases hj : nextJob s.now c.tenant a.locked s.jobs with
    | some j =>
      refine lawful_snoc.trans (and_congr_right fun _ => ?_)
      dsimp only [bound]
      rw [h.revoked]
      simp
    | none =>
      dsimp only
      split_ifs <;> simp
  | refresh token c => exact (and_iff_left trivial).symm
  | result c job result =>
    dsimp only [goOn]
    split_ifs with hfin
    · obtain ⟨hjson, j, hj, hid, htenant, hclaimed⟩ := hfin
      refine lawful_snoc.trans (and_congr_right fun _ => ?_)
      have htells := h.recorded.tells j hj (Or.inr hclaimed)
      dsimp only [bound]
      rw [h.revoked, ← hid, htells.handed]
      constructor
      · rintro ⟨⟨-, hdevice⟩, hrevoked⟩ - j' hj' hfin'
        obtain rfl := h.recorded.keyed.eq_of_key hj' hj hfin'.1
        exact ⟨hdevice, hrevoked⟩
      · intro hheeds
        obtain ⟨hdevice, hrevoked⟩ := hheeds hjson j hj ⟨rfl, htenant, hclaimed⟩
        exact ⟨⟨hclaimed, hdevice⟩, hrevoked⟩
    · refine (and_iff_left ?_).symm
      intro hjson j hj hp
      exact absurd ⟨hjson, j, hj, hp⟩ hfin
  | create tenant sessionId command =>
    dsimp only [goOn]
    split_ifs <;> simp
  | wait job =>
    dsimp only [goOn]
    split_ifs
    · exact lawful_snoc
    · exact (and_iff_left trivial).symm
    · exact (and_iff_left trivial).symm
    · exact (and_iff_left trivial).symm

theorem log_authorized (token : String) (call : Client → Call) : (authorized host token call s).log = s.log := by
  unfold authorized
  dsimp only
  split <;> rfl

theorem log_completePairing (code token id : String) : (completePairing host code token id s).log = s.log := by
  unfold completePairing
  dsimp only
  split
  · rfl
  · split_ifs <;> rfl

theorem lawful_revokeAll (law : List Event → Event → Prop) (hexpired : ∀ pre job, law pre (.expired job))
    (hrevoked : ∀ pre device, law pre (.revoked device)) (tenant : String) (spared : List String) :
    Lawful law (revokeAll tenant spared s).log ↔ Lawful law s.log := by
  dsimp only [revokeAll]
  rw [List.append_assoc]
  refine lawful_append_of_forall fun e he pre => ?_
  rcases List.mem_append.mp he with he | he
  · obtain ⟨d, -, rfl⟩ := List.mem_map.mp he
    exact hrevoked pre d.id
  · obtain ⟨j, -, rfl⟩ := List.mem_map.mp he
    exact hexpired pre j.id

theorem once_step (h : Inv s) (op : Op) : Lawful once (step host s op).log ↔ Lawful once s.log := by
  cases op with
  | pair code token id =>
    dsimp only [step]
    rw [log_completePairing]
  | poll token =>
    dsimp only [step]
    rw [log_authorized]
  | result token job result =>
    dsimp only [step]
    rw [log_authorized]
  | runPcTool tenant sessionId command =>
    dsimp only [step]
    split_ifs <;> exact Iff.rfl
  | revokeAll tenant spared => exact lawful_revokeAll once (fun _ _ => trivial) (fun _ _ => trivial) tenant spared
  | goOn call a =>
    dsimp only [step]
    split
    · exact Iff.rfl
    · exact once_goOn (h.withCalls _) a _
  | pass | startPairing | drop => exact Iff.rfl

theorem bound_step (h : Inv s) (op : Op) :
    Lawful bound (step host s op).log ↔ Lawful bound s.log ∧ Heeds host s op := by
  cases op with
  | pair code token id =>
    dsimp only [step]
    rw [log_completePairing]
    exact (and_iff_left trivial).symm
  | poll token =>
    dsimp only [step]
    rw [log_authorized]
    exact (and_iff_left trivial).symm
  | result token job result =>
    dsimp only [step]
    rw [log_authorized]
    exact (and_iff_left trivial).symm
  | runPcTool tenant sessionId command =>
    dsimp only [step]
    split_ifs <;> exact (and_iff_left trivial).symm
  | revokeAll tenant spared =>
    have hlawful := lawful_revokeAll (s := s) bound (fun _ _ => trivial) (fun _ _ => trivial) tenant spared
    exact hlawful.trans (and_iff_left trivial).symm
  | goOn call a =>
    cases hcall : s.calls[call]? with
    | none =>
      dsimp only [step]
      unfold Heeds
      simp only [hcall, and_true]
    | some c =>
      dsimp only [step]
      simp only [hcall]
      exact bound_goOn h hcall a _
  | pass | startPairing | drop => exact (and_iff_left trivial).symm

/-- **Jobs and revoked devices.** In every run each job is handed out once, and a result is taken while the job is
with a device. The devices are bound to their jobs, and a revoked device gets nothing and gives nothing, exactly
when each claim that finds a job is by a device that is not revoked, and each result that is taken is from the
device that has the job, and that is not revoked. -/
theorem results_bound_iff (host : Host) (now : TaskStore.Schema.Time) (ops : List Op) :
    Lawful once (run (step host) { now } ops).log ∧
      (Lawful bound (run (step host) { now } ops).log ↔ Along (step host) (Heeds host) { now } ops) := by
  have hstart := inv_start now
  have hstep : ∀ s op, Inv s → Inv (step host s op) := fun s op h => inv_step h op
  constructor
  · refine (lawful_run_iff (L := State.log) (G := fun _ _ => True) hstep ?_ hstart).mpr ⟨lawful_nil, ?_⟩
    · intro s op h
      exact (once_step h op).trans (and_iff_left trivial).symm
    · exact along_of_forall (R := fun _ => True) fun _ _ => trivial
  · refine (lawful_run_iff (L := State.log) hstep (fun s op h => bound_step h op) hstart).trans ?_
    exact and_iff_right lawful_nil

def clear : Host := ⟨id, id, fun _ => true⟩

def twoPcs : List Op :=
  [.startPairing "shop" "AAAA-AAAA", .pair "AAAA-AAAA" "token-a" "a",
    .startPairing "shop" "BBBB-BBBB", .pair "BBBB-BBBB" "token-b" "b",
    .runPcTool "shop" "s" "files", .goOn 0 { id := "job" },
    .poll "token-a", .goOn 1 {}, .result "token-b" "job" "done", .goOn 1 {}]

/-- A PC that is revoked while its request waits. -/
def longPoll : List Op :=
  [.startPairing "shop" "AAAA-AAAA", .pair "AAAA-AAAA" "token-a" "a", .poll "token-a", .goOn 0 {},
    .runPcTool "shop" "s" "files", .revokeAll "shop" [], .goOn 1 { id := "job" },
    .goOn 0 {}, .goOn 1 {}]

/-- Neither run is lawful. -/
theorem results_not_bound :
    ¬ Lawful bound (run (step clear) {} twoPcs).log ∧ ¬ Lawful bound (run (step clear) {} longPoll).log := by
  have htwo : (run (step clear) {} twoPcs).log = [.handed "job" "a", .taken "job" "b"] := by decide
  have hlong : (run (step clear) {} longPoll).log = [.revoked "a", .handed "job" "a"] := by decide
  rw [htwo, hlong]
  constructor
  · intro h
    exact absurd (h [.handed "job" "a"] (.taken "job" "b") [] rfl).1 (by decide)
  · intro h
    exact absurd (h [.revoked "a"] (.handed "job" "a") [] rfl) (by simp [bound])

end Smara.Server.Bridge
