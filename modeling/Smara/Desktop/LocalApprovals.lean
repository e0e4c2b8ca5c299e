import Smara.Desktop.LocalTasks
import Smara.Lib.Chronicle

/-! # Approvals of local tasks

Claims take tasks that are queued. A task gets there by its creation, if that needs no approval, or by an approval.

* `History`: the file, with a log of what has become of the tasks.
* `since`: the acts on a task since its creation.
* `Ready`: the task may be claimed.
* `approvals`: the acts on each task are lawful, and the statuses `completed` and `cancelled` are final. -/

namespace Smara.Desktop.LocalApprovals

open Lib.Chronicle Lib.Machine Lib.Table Desktop.LocalTasks

/-! ### The log -/

inductive Act
  | created (needsApproval deletes : Bool)
  | queued
  | claimed
  | cancelled
  deriving DecidableEq

structure Entry where
  id : String
  act : Act
  deriving DecidableEq

def statusOf (taskId : String) (file : List Task) : Option Status :=
  (file.find? fun t => t.id = taskId).map Task.status

/-- What a mutation of the file adds to the log: an approval, if it has changed the task to `queued`. -/
def acts (c : Call) (file : List Task) : Except Err Value → List Entry
  | .ok (.summary s) =>
    match c.op with
    | .create d => [⟨s.id, .created s.requiresApproval (d.isDelete s.requiredCapability)⟩]
    | .approve taskId => if statusOf taskId file ≠ some .queued ∧ s.status = .queued then [⟨taskId, .queued⟩] else []
    | .cancel taskId => [⟨taskId, .cancelled⟩]
    | _ => []
  | .ok (.claimed (some t)) => [⟨t.id, .claimed⟩]
  | _ => []

structure History where
  file : List Task := []
  log : List Entry := []

def step (store : LocalTaskStore) (h : History) (c : Call) : History :=
  ⟨(perform store c h.file).2, h.log ++ acts c h.file (perform store c h.file).1⟩

/-- The acts on the task with this id, from its creation on. -/
def since (taskId : String) (log : List Entry) : List Act :=
  log.foldl (fun l e =>
    if e.id = taskId then
      match e.act with
      | .created needsApproval deletes => [.created needsApproval deletes]
      | act => l ++ [act]
    else l) []

def Act.isCreated : Act → Bool
  | .created _ _ => true
  | _ => false

def Act.free : Act → Bool
  | .created needsApproval _ => !needsApproval
  | _ => false

def creations (taskId : String) (log : List Entry) : ℕ := log.countP fun e => e.id = taskId ∧ e.act.isCreated

/-- A task with these acts may be claimed: there are fewer claims than approvals, and a first one for a task that
needs none; a task that deletes has an approval; and there is one after each cancellation. -/
structure Ready (l : List Act) : Prop where
  claims : l.count .claimed < l.count .queued + l.countP Act.free
  deletes : ∀ needsApproval, .created needsApproval true ∈ l → .queued ∈ l
  cancels : ∀ pre post, l = pre ++ .cancelled :: post → .queued ∈ post

def law (pre : List Act) (a : Act) : Prop := a = .claimed → Ready pre

structure Inv (h : History) : Prop where
  keyed : Keyed Task.id h.file
  lawful : ∀ taskId, Lawful law (since taskId h.log)
  ready : ∀ t ∈ h.file, t.status = .queued → Ready (since t.id h.log)

/-! ### Acts on a task -/

section Acts
variable {l : List Act} {log : List Entry} {id id' : String} {a : Act}

theorem count_claimed_le (h : Lawful law l) : l.count .claimed ≤ l.count .queued + l.countP Act.free := by
  induction l using List.reverseRecOn with
  | nil => simp
  | append_singleton l a ih =>
    obtain ⟨hl, ha⟩ := lawful_snoc.mp h
    have hle := ih hl
    rw [List.count_append, List.count_append, List.countP_append]
    by_cases hclaimed : a = .claimed
    · have hlt := (ha hclaimed).claims
      subst hclaimed
      simp only [List.count_singleton_self]
      omega
    · have hzero : [a].count .claimed = 0 := List.count_eq_zero.mpr (by simpa using Ne.symm hclaimed)
      omega

theorem ready_queued (h : Lawful law l) : Ready (l ++ [.queued]) := by
  refine ⟨?_, fun _ _ => by simp, fun pre post heq => ?_⟩
  · have hle := count_claimed_le h
    have hqueued : (l ++ [Act.queued]).count .queued = l.count .queued + 1 := by simp
    have hclaimed : (l ++ [Act.queued]).count .claimed = l.count .claimed := by simp
    have hfree : (l ++ [Act.queued]).countP Act.free = l.countP Act.free := by simp [Act.free]
    omega
  · cases post using List.reverseRecOn with
    | nil =>
      have hlast := List.append_inj_right' heq rfl
      cases hlast
    | append_singleton post a =>
      have heq' : l ++ [Act.queued] = (pre ++ .cancelled :: post) ++ [a] := by rw [heq, List.append_assoc, List.cons_append]
      have hlast := List.append_inj_right' heq' rfl
      rw [← hlast]
      simp

theorem since_snoc_ne (hid : id' ≠ id) : since id' (log ++ [⟨id, a⟩]) = since id' log := by
  rw [since, List.foldl_append]
  exact if_neg hid.symm

theorem since_snoc (ha : a.isCreated = false) : since id (log ++ [⟨id, a⟩]) = since id log ++ [a] := by
  rw [since, List.foldl_append]
  simp only [List.foldl_cons, List.foldl_nil, if_true]
  cases a with
  | created needsApproval deletes => cases ha
  | queued => rfl
  | claimed => rfl
  | cancelled => rfl

theorem since_created (needsApproval deletes : Bool) :
    since id (log ++ [⟨id, .created needsApproval deletes⟩]) = [.created needsApproval deletes] := by
  rw [since, List.foldl_append]
  exact if_pos rfl

theorem tail_since (id : String) (log : List Entry) : ∀ a ∈ (since id log).tail, a.isCreated = false := by
  induction log using List.reverseRecOn with
  | nil => exact fun a ha => absurd ha List.not_mem_nil
  | append_singleton log e ih =>
    obtain ⟨id', a⟩ := e
    by_cases hid : id' = id
    · subst hid
      cases ha : a.isCreated with
      | false =>
        rw [since_snoc ha]
        intro a' ha'
        cases hsince : since id' log with
        | nil =>
          rw [hsince] at ha'
          exact absurd ha' List.not_mem_nil
        | cons a₀ l =>
          rw [hsince, List.cons_append, List.tail_cons, List.mem_append] at ha'
          rcases ha' with ha' | ha'
          · exact ih a' (by rw [hsince]; exact ha')
          · rw [List.mem_singleton.mp ha']
            exact ha
      | true =>
        cases a with
        | created needsApproval deletes =>
          rw [since_created]
          exact fun a ha => absurd ha List.not_mem_nil
        | queued => cases ha
        | claimed => cases ha
        | cancelled => cases ha
    · rw [since_snoc_ne (Ne.symm hid)]
      exact ih

theorem countP_free_le (id : String) (log : List Entry) : (since id log).countP Act.free ≤ 1 := by
  have htail := tail_since id log
  cases hsince : since id log with
  | nil => simp
  | cons a l =>
    rw [hsince, List.tail_cons] at htail
    have hzero : l.countP Act.free = 0 := by
      refine List.countP_eq_zero.mpr fun a' ha' hfree => ?_
      have hnot := htail a' ha'
      cases a' with
      | created needsApproval deletes => cases hnot
      | queued => cases hfree
      | claimed => cases hfree
      | cancelled => cases hfree
    rw [List.countP_cons, hzero]
    split_ifs
    · exact Nat.le_refl 1
    · exact Nat.zero_le 1

theorem created_mem {needsApproval deletes : Bool} {pre post : List Act}
    (hmem : .created needsApproval deletes ∈ since id log) (hsplit : since id log = pre ++ a :: post)
    (ha : a.isCreated = false) : .created needsApproval deletes ∈ pre := by
  have htail := tail_since id log
  rw [hsplit] at hmem htail
  cases pre with
  | nil =>
    rcases List.mem_cons.mp hmem with rfl | hmem
    · cases ha
    · cases htail _ hmem
  | cons a₀ pre =>
    rcases List.mem_cons.mp hmem with rfl | hmem
    · exact List.mem_cons_self
    · cases htail _ hmem

end Acts

/-! ### One mutation -/

section Step
variable {store : LocalTaskStore} {h : History} {file : List Task} {id : String} {a : Act}

theorem inv_start : Inv {} := by
  refine ⟨List.nodup_nil, fun _ => lawful_nil, fun t ht => ?_⟩
  cases ht

theorem Inv.quiet (hinv : Inv h) (hkeyed : Keyed Task.id file)
    (hrows : ∀ t' ∈ file, t'.status = .queued → ∃ t ∈ h.file, t.id = t'.id ∧ t.status = .queued) :
    Inv ⟨file, h.log⟩ := by
  refine ⟨hkeyed, hinv.lawful, fun t' ht' hqueued => ?_⟩
  obtain ⟨t, ht, hid, hstatus⟩ := hrows t' ht' hqueued
  rw [← hid]
  exact hinv.ready t ht hstatus

theorem Inv.snoc (hinv : Inv h) (hkeyed : Keyed Task.id file) (ha : a.isCreated = false)
    (hlaw : law (since id h.log) a)
    (hrows : ∀ t' ∈ file, t'.id ≠ id → t'.status = .queued → ∃ t ∈ h.file, t.id = t'.id ∧ t.status = .queued)
    (hown : ∀ t' ∈ file, t'.id = id → t'.status = .queued → Ready (since id h.log ++ [a])) :
    Inv ⟨file, h.log ++ [⟨id, a⟩]⟩ := by
  refine ⟨hkeyed, fun id' => ?_, fun t' ht' hqueued => ?_⟩
  · by_cases hid : id' = id
    · rw [hid, since_snoc ha]
      exact lawful_snoc.mpr ⟨hinv.lawful id, hlaw⟩
    · rw [since_snoc_ne hid]
      exact hinv.lawful id'
  · by_cases hid : t'.id = id
    · rw [hid, since_snoc ha]
      exact hown t' ht' hid hqueued
    · obtain ⟨t, ht, hid', hstatus⟩ := hrows t' ht' hid hqueued
      rw [since_snoc_ne hid, ← hid']
      exact hinv.ready t ht hstatus

theorem newTask_spec {env : Env} {d : Draft} {task : Task} (hnew : newTask env d = .ok task) :
    (task.status = .queued → task.requiresApproval = false) ∧
      (task.requiresApproval = false → ¬ d.isDelete task.requiredCapability) := by
  unfold newTask at hnew
  split at hnew
  · cases hnew
  · cases hnew
  · split_ifs at hnew
    · split at hnew
      · cases hnew
      · cases hnew
    split at hnew
    · cases hnew
    · cases hnew
      refine ⟨fun hqueued => ?_, fun hfree hdelete => ?_⟩
      · by_contra hneeds
        have hneeds' := of_decide_eq_true (eq_true_of_ne_false hneeds)
        simp only [if_pos hneeds'] at hqueued
        cases hqueued
      · exact of_decide_eq_false hfree (Or.inl hdelete)

theorem Inv.created (hinv : Inv h) {env : Env} {d : Draft} {task : Task} (hnew : newTask env d = .ok task)
    (hkeyed : Keyed Task.id file)
    (hrows : ∀ t' ∈ file, t' = task ∨ t' ∈ h.file ∧ t'.id ≠ task.id) :
    Inv ⟨file, h.log ++ [⟨task.id, .created task.requiresApproval (d.isDelete task.requiredCapability)⟩]⟩ := by
  obtain ⟨hqueued, hdelete⟩ := newTask_spec hnew
  refine ⟨hkeyed, fun id' => ?_, fun t' ht' hstatus => ?_⟩
  · by_cases hid : id' = task.id
    · rw [hid, since_created]
      refine lawful_snoc.mpr ⟨lawful_nil, fun hclaimed => ?_⟩
      cases hclaimed
    · rw [since_snoc_ne hid]
      exact hinv.lawful id'
  · rcases hrows t' ht' with rfl | ⟨ht, hid⟩
    · have hfree := hqueued hstatus
      have hkeep := hdelete hfree
      simp only [since_created, hfree, decide_eq_false hkeep]
      refine ⟨by decide, fun _ hmem => ?_, fun pre post heq => ?_⟩
      · simp at hmem
      · have hmem : Act.cancelled ∈ [Act.created false false] := by
          rw [heq]
          simp
        simp at hmem
    · rw [since_snoc_ne hid]
      exact hinv.ready t' ht hstatus

section Changed
variable {pre post : List Task} {t t' : Task} {n : ℕ}

theorem keyed_changed (hkeyed : Keyed Task.id h.file) (hsub : (pre ++ t :: post).Sublist h.file) (hid : t'.id = t.id) :
    Keyed Task.id ((pre ++ t' :: post).take n) := by
  have hnodup : Keyed Task.id (pre ++ t :: post) := hkeyed.sublist (hsub.map _)
  have hmap : (pre ++ t' :: post).map Task.id = (pre ++ t :: post).map Task.id := by simp [hid]
  have hnodup' : Keyed Task.id (pre ++ t' :: post) := by
    rw [Keyed, hmap]
    exact hnodup
  exact hnodup'.sublist ((List.take_sublist n _).map _)

theorem mem_changed (hkeyed : Keyed Task.id h.file) (hsub : (pre ++ t :: post).Sublist h.file) {x : Task}
    (hx : x ∈ (pre ++ t' :: post).take n) : x = t' ∨ x ∈ h.file ∧ x.id ≠ t.id := by
  have hnodup : Keyed Task.id (pre ++ t :: post) := hkeyed.sublist (hsub.map _)
  have hothers : ∀ y ∈ pre ++ post, y.id ≠ t.id := by
    intro y hy heq
    have hcons : (t.id :: (pre ++ post).map Task.id).Nodup := by
      refine (List.Perm.nodup_iff ?_).mp hnodup
      rw [List.map_append, List.map_cons, List.map_append]
      exact List.perm_middle
    exact (List.nodup_cons.mp hcons).1 (heq ▸ List.mem_map_of_mem hy)
  have hmem := List.mem_of_mem_take hx
  rw [List.mem_append, List.mem_cons] at hmem
  rcases hmem with hpre | rfl | hpost
  · exact Or.inr ⟨hsub.subset (by simp [hpre]), hothers x (by simp [hpre])⟩
  · exact Or.inl rfl
  · exact Or.inr ⟨hsub.subset (by simp [hpost]), hothers x (by simp [hpost])⟩

theorem statusOf_eq (hkeyed : Keyed Task.id h.file) (ht : t ∈ h.file) : statusOf t.id h.file = some t.status := by
  have hfind : lookup Task.id t.id h.file = some t := lookup_eq_some_iff hkeyed |>.mpr ⟨ht, rfl⟩
  rw [statusOf]
  exact congrArg (Option.map Task.status) hfind

/-- The operations of the interface and of the runner. -/
def Op.Listed : Op → Prop
  | .update _ _ _ _ _ => False
  | _ => True

instance : DecidablePred Op.Listed := fun op =>
  match op with
  | .update _ _ _ _ _ => .isFalse fun h => h
  | .create _ => .isTrue trivial
  | .approve _ => .isTrue trivial
  | .claim _ => .isTrue trivial
  | .progress _ _ => .isTrue trivial
  | .complete _ _ => .isTrue trivial
  | .fail _ _ _ => .isTrue trivial
  | .recoverInterrupted => .isTrue trivial
  | .cancel _ => .isTrue trivial
  | .finishCancelled _ _ => .isTrue trivial

theorem Inv.still (hinv : Inv h) (hsub : (pre ++ t :: post).Sublist h.file) (hid : t'.id = t.id)
    (hstatus : t'.status = .queued → t.status = .queued) : Inv ⟨(pre ++ t' :: post).take n, h.log⟩ := by
  refine hinv.quiet (keyed_changed hinv.keyed hsub hid) fun x hx hqueued => ?_
  rcases mem_changed hinv.keyed hsub hx with rfl | ⟨hmem, -⟩
  · exact ⟨t, hsub.subset (by simp), hid.symm, hstatus hqueued⟩
  · exact ⟨x, hmem, rfl, hqueued⟩

theorem Inv.acted (hinv : Inv h) (hsub : (pre ++ t :: post).Sublist h.file) (hid : t'.id = t.id)
    (ha : a.isCreated = false) (hlaw : law (since t.id h.log) a)
    (hown : t'.status = .queued → Ready (since t.id h.log ++ [a])) :
    Inv ⟨(pre ++ t' :: post).take n, h.log ++ [⟨t.id, a⟩]⟩ := by
  refine hinv.snoc (keyed_changed hinv.keyed hsub hid) ha hlaw (fun x hx hne hqueued => ?_) fun x hx heq hqueued => ?_
  · rcases mem_changed hinv.keyed hsub hx with rfl | ⟨hmem, -⟩
    · exact absurd hid hne
    · exact ⟨x, hmem, rfl, hqueued⟩
  · rcases mem_changed hinv.keyed hsub hx with rfl | ⟨-, hne⟩
    · exact hown hqueued
    · exact absurd heq hne

theorem Inv.changed (hinv : Inv h) {c : Call} (hlisted : Op.Listed c.op) (hsub : (pre ++ t :: post).Sublist h.file)
    (hchanges : c.op.Changes c.env t t') :
    Inv ⟨(pre ++ t' :: post).take n, h.log ++ acts c h.file (.ok (c.op.value t'))⟩ := by
  have hid := hchanges.legal.id
  have ht : t ∈ h.file := hsub.subset (by simp)
  obtain ⟨op, env, disk⟩ := c
  cases op with
  | create d => exact hchanges.elim
  | update taskId status result error event => exact hlisted.elim
  | approve taskId =>
    obtain ⟨rfl, hf⟩ := hchanges
    simp only [acts, Op.value, statusOf_eq hinv.keyed ht]
    split_ifs with hcond
    · exact hinv.acted hsub hid rfl (fun h => by cases h) fun _ => ready_queued (hinv.lawful t.id)
    · rw [List.append_nil]
      refine hinv.still hsub hid fun hqueued => ?_
      by_contra hne
      exact hcond ⟨fun h => hne (Option.some.inj h), hqueued⟩
  | claim taskId =>
    obtain ⟨⟨hqueued, -⟩, hf⟩ := hchanges
    have hrunning := (claimTask_spec hf).2
    simp only [acts, Op.value, hid]
    refine hinv.acted hsub hid rfl (fun _ => hinv.ready t ht hqueued) fun hq => ?_
    rw [hrunning] at hq
    cases hq
  | progress taskId message =>
    obtain ⟨-, text, -, hf⟩ := hchanges
    have hsame := (progressTask_spec hf).2
    simp only [acts, Op.value, List.append_nil]
    exact hinv.still hsub hid fun hq => hsame ▸ hq
  | complete taskId result =>
    have hcompleted := (completeTask_spec hchanges.2).2
    simp only [acts, Op.value, List.append_nil]
    refine hinv.still hsub hid fun hq => ?_
    rw [hcompleted] at hq
    cases hq
  | fail taskId error interrupted =>
    have hfailed := (failTask_spec hchanges.2).2
    simp only [acts, Op.value, List.append_nil]
    refine hinv.still hsub hid fun hq => ?_
    rw [hfailed] at hq
    cases interrupted
    · cases hq
    · cases hq
  | recoverInterrupted => exact hchanges.elim
  | cancel taskId =>
    obtain ⟨rfl, hf⟩ := hchanges
    have hcancelled := (cancelTask_spec hf).2
    simp only [acts, Op.value]
    refine hinv.acted hsub hid rfl (fun h => by cases h) fun hq => ?_
    rw [hq] at hcancelled
    simp [terminalStatuses] at hcancelled
  | finishCancelled taskId error =>
    have hcancelled := (finishCancelledTask_spec hchanges.2).2
    simp only [acts, Op.value, List.append_nil]
    refine hinv.still hsub hid fun hq => ?_
    rw [hq] at hcancelled
    simp [terminalStatuses] at hcancelled

end Changed

theorem Inv.recovered (hinv : Inv h) {env : LocalTasks.Env} {tasks tasks' : List Task} {n : ℕ} (hsub : tasks.Sublist h.file)
    (hmap : tasks.mapM (recoverTask env) = .ok tasks') : Inv ⟨tasks'.take n, h.log⟩ := by
  have hrel := forall₂_recoverTask hmap
  have hids : tasks'.map Task.id = tasks.map Task.id := by
    refine List.ext_getElem (by simp [hrel.length_eq]) fun i h₁ h₂ => ?_
    rw [List.getElem_map, List.getElem_map]
    exact (recoverTask_spec (hrel.get (by simpa using h₂) (by simpa using h₁))).1.id
  have hkeyed : Keyed Task.id tasks := hinv.keyed.sublist (hsub.map _)
  refine hinv.quiet ?_ fun t' ht' hqueued => ?_
  · have hkeyed' : Keyed Task.id tasks' := by
      rw [Keyed, hids]
      exact hkeyed
    exact hkeyed'.sublist ((List.take_sublist n _).map _)
  · obtain ⟨i, hi, rfl⟩ := List.getElem_of_mem (List.mem_of_mem_take ht')
    have hi' : i < tasks.length := by
      rw [hrel.length_eq]
      exact hi
    obtain ⟨hlegal, hcase⟩ := recoverTask_spec (hrel.get hi' hi)
    refine ⟨tasks[i], hsub.subset (List.getElem_mem hi'), hlegal.id.symm, ?_⟩
    rcases hcase with hsame | ⟨-, hreview⟩
    · have hstatus : tasks'[i].status = tasks[i].status := congrArg Task.status hsame
      rw [← hstatus]
      exact hqueued
    · rw [List.get_eq_getElem] at hreview
      rw [hreview] at hqueued
      cases hqueued

theorem keyed_created {task : Task} {tasks : List Task} {n : ℕ} (hkeyed : Keyed Task.id h.file)
    (hsub : tasks.Sublist h.file) : Keyed Task.id ((task :: tasks.filter fun t => t.id ≠ task.id).take n) := by
  have hcons : Keyed Task.id (task :: tasks.filter fun t => t.id ≠ task.id) := by
    refine List.nodup_cons.mpr ⟨fun hmem => ?_, hkeyed.sublist ((List.filter_sublist.trans hsub).map _)⟩
    obtain ⟨t, ht, hid⟩ := List.mem_map.mp hmem
    simpa [hid] using (List.mem_filter.mp ht).2
  exact hcons.sublist ((List.take_sublist n _).map _)

/-- **One mutation**, with any outcome of the reading. -/
theorem Inv.step (hinv : Inv h) {c : Call} (hlisted : Op.Listed c.op) : Inv (step store h c) := by
  have hsub := read_sublist store c.disk h.file
  unfold LocalApprovals.step
  rcases perform_cases store c h.file with ⟨e, heq⟩ | ⟨v, tasks, -, -, heffect, heq⟩
  · rw [heq]
    simp only [acts, List.append_nil]
    exact hinv
  · rw [heq]
    generalize read store c.disk h.file = old at hsub heffect
    cases heffect with
    | created hop hnew =>
      simp only [acts, hop]
      refine hinv.created hnew (keyed_created hinv.keyed hsub) fun t' ht' => ?_
      rcases List.mem_cons.mp (List.mem_of_mem_take ht') with rfl | hmem
      · exact Or.inl rfl
      · obtain ⟨hold, hne⟩ := List.mem_filter.mp hmem
        exact Or.inr ⟨hsub.subset hold, by simpa using hne⟩
    | changed hsplit _ hchanges =>
      subst hsplit
      exact hinv.changed hlisted hsub hchanges
    | unclaimed hop =>
      simp only [acts, List.append_nil]
      have hkept : (tasks.take store.maxEntries).Sublist h.file := (List.take_sublist _ tasks).trans hsub
      exact hinv.quiet (hinv.keyed.sublist (hkept.map _)) fun t ht hqueued => ⟨t, hkept.subset ht, rfl, hqueued⟩
    | recovered hop hmap =>
      simp only [acts, List.append_nil]
      exact hinv.recovered hsub hmap

end Step

/-! ### Final statuses -/

section Final
variable {store : LocalTaskStore} {h : History} {id : String} {s : Status}

def final : List Status := [.completed, .cancelled]

theorem status_of_final {t t' : Task} (hlegal : Legal t t') (ht : t.status ∈ final) : t'.status = t.status := by
  rcases hlegal.status with hsame | hmoved
  · exact hsame
  · simp only [LocalApprovals.final, List.mem_cons, List.not_mem_nil, or_false] at ht
    rcases ht with ht | ht
    · rw [ht] at hmoved
      cases hmoved
    · rw [ht] at hmoved
      cases hmoved

theorem creations_created {log : List Entry} (needsApproval deletes : Bool) :
    creations id (log ++ [⟨id, .created needsApproval deletes⟩]) = creations id log + 1 := by
  simp [creations, Act.isCreated]

theorem step_rows (c : Call) {t' : Task} (ht' : t' ∈ (step store h c).file) :
    (∃ t ∈ h.file, Legal t t') ∨ creations t'.id h.log < creations t'.id (step store h c).log := by
  have hsub := read_sublist store c.disk h.file
  unfold LocalApprovals.step at ht' ⊢
  rcases perform_cases store c h.file with ⟨e, heq⟩ | ⟨v, tasks, -, -, heffect, heq⟩
  · rw [heq] at ht'
    exact Or.inl ⟨t', ht', rfl, Or.inl rfl⟩
  · rw [heq] at ht' ⊢
    have hmem := List.mem_of_mem_take ht'
    generalize read store c.disk h.file = old at hsub heffect
    cases heffect with
    | created hop hnew =>
      rcases List.mem_cons.mp hmem with rfl | hmem
      · right
        simp only [acts, hop]
        rw [show t'.summary.id = t'.id from rfl, creations_created]
        exact Nat.lt_succ_self _
      · exact Or.inl ⟨t', hsub.subset (List.mem_filter.mp hmem).1, rfl, Or.inl rfl⟩
    | changed hsplit _ hchanges =>
      subst hsplit
      rw [List.mem_append, List.mem_cons] at hmem
      rcases hmem with hpre | rfl | hpost
      · exact Or.inl ⟨t', hsub.subset (by simp [hpre]), rfl, Or.inl rfl⟩
      · exact Or.inl ⟨_, hsub.subset (by simp), hchanges.legal⟩
      · exact Or.inl ⟨t', hsub.subset (by simp [hpost]), rfl, Or.inl rfl⟩
    | unclaimed hop => exact Or.inl ⟨t', hsub.subset hmem, rfl, Or.inl rfl⟩
    | recovered hop hmap =>
      have hrel := forall₂_recoverTask hmap
      obtain ⟨i, hi, rfl⟩ := List.getElem_of_mem hmem
      have hi' : i < old.length := by
        rw [hrel.length_eq]
        exact hi
      exact Or.inl ⟨old[i], hsub.subset (List.getElem_mem hi'), (recoverTask_spec (hrel.get hi' hi)).1⟩

theorem creations_mono (c : Call) : creations id h.log ≤ creations id (step store h c).log := by
  unfold LocalApprovals.step creations
  rw [List.countP_append]
  exact Nat.le_add_right _ _

theorem final_run (calls : List Call) (hs : s ∈ final) (h₀ : ∀ t ∈ h.file, t.id = id → t.status = s) :
    let h' := run (step store) h calls
    creations id h'.log = creations id h.log → ∀ t ∈ h'.file, t.id = id → t.status = s := by
  have hinv : creations id h.log ≤ creations id (run (step store) h calls).log ∧
      (creations id (run (step store) h calls).log = creations id h.log →
        ∀ t ∈ (run (step store) h calls).file, t.id = id → t.status = s) := by
    refine inv_run (G := fun _ _ => True) (I := fun h' : History => creations id h.log ≤ creations id h'.log ∧
      (creations id h'.log = creations id h.log → ∀ t ∈ h'.file, t.id = id → t.status = s)) ?_
      ⟨Nat.le_refl _, fun _ => h₀⟩ (along_of_forall fun _ _ => trivial)
    rintro h' c ⟨hle, hkept⟩ -
    have hmono : creations id h'.log ≤ creations id (step store h' c).log := creations_mono c
    refine ⟨hle.trans hmono, fun heq t' ht' hid => ?_⟩
    have hsame : creations id h'.log = creations id h.log := by omega
    rcases step_rows c ht' with ⟨t, ht, hlegal⟩ | hdrawn
    · have hstatus := hkept hsame t ht (hlegal.id ▸ hid)
      have hfinal : t.status ∈ final := hstatus ▸ hs
      rw [status_of_final hlegal hfinal, hstatus]
    · rw [hid] at hdrawn
      omega
  exact hinv.2

end Final

/-! ### All runs -/

/-- **Approvals of local tasks.** After every run of mutations, and for every id: since its creation the task was
claimed at most as often as an approval has queued it, and once more if it needs none; a task that deletes a file was
not claimed before its first approval; no claim follows a cancellation without an approval between them. A task that
is completed or cancelled stays so. -/
theorem approvals (store : LocalTaskStore) (calls : List Call) (hlisted : ∀ c ∈ calls, Op.Listed c.op) :
    (∀ taskId,
      let l := since taskId (run (step store) {} calls).log
      l.count .claimed ≤ l.count .queued + l.countP Act.free ∧ l.countP Act.free ≤ 1 ∧
        (∀ needsApproval, .created needsApproval true ∈ l → ∀ pre post, l = pre ++ .claimed :: post → .queued ∈ pre) ∧
        ∀ pre mid post, l = pre ++ .cancelled :: mid ++ .claimed :: post → .queued ∈ mid) ∧
      ∀ pre mid, calls = pre ++ mid →
        ∀ t ∈ (run (step store) {} pre).file, t.status = .completed ∨ t.status = .cancelled →
          ∀ t' ∈ (run (step store) {} calls).file, t'.id = t.id →
            creations t.id (run (step store) {} calls).log = creations t.id (run (step store) {} pre).log →
              t'.status = t.status := by
  have hreach : ∀ calls : List Call, (∀ c ∈ calls, Op.Listed c.op) → Inv (run (step store) {} calls) := fun calls hl =>
    inv_run (G := fun _ c => Op.Listed c.op) (fun _ _ hinv hl => hinv.step hl) inv_start (along_of_forall hl)
  refine ⟨fun taskId => ?_, ?_⟩
  · have hlawful := (hreach calls hlisted).lawful taskId
    refine ⟨count_claimed_le hlawful, countP_free_le _ _, fun needsApproval hmem pre post heq => ?_,
      fun pre mid post heq => ?_⟩
    · have hcreated := created_mem hmem heq rfl
      exact (hlawful _ _ _ heq rfl).deletes needsApproval hcreated
    · exact (hlawful _ _ _ heq rfl).cancels pre mid rfl
  · rintro pre mid rfl t ht hfinal t' ht' hid hsame
    have hkeyed := (hreach pre fun c hc => hlisted c (List.mem_append_left _ hc)).keyed
    rw [run_append] at ht' hsame
    refine final_run mid ?_ (fun u hu hu' => ?_) hsame t' ht' hid
    · simpa [final] using hfinal
    · rw [hkeyed.eq_of_key hu ht hu']

/-- A task that needs no approval is claimed, recovered after a crash, and cannot be claimed again. -/
def crashed : List Call :=
  let env : LocalTasks.Env := { clock := fun _ => "2024-01-01T00:00:00Z", hex := fun _ => "0" }
  [⟨.create { title := "Report", objective := "Write it", requiresApproval := false }, env, {}⟩, ⟨.claim none, env, {}⟩,
    ⟨.recoverInterrupted, env, {}⟩, ⟨.claim none, env, {}⟩]

theorem approvals_crashed :
    since "local_0" (run (step (.new 200)) {} crashed).log = [.created false false, .claimed] ∧
      (since "local_0" (run (step (.new 200)) {} crashed).log).count .claimed ≤ 0 + 1 := by
  have hacts : since "local_0" (run (step (.new 200)) {} crashed).log = [.created false false, .claimed] := by
    decide
  obtain ⟨hcount, -⟩ := (approvals (.new 200) crashed (by decide)).1 "local_0"
  rw [hacts] at hcount ⊢
  exact ⟨rfl, hcount⟩

end Smara.Desktop.LocalApprovals
