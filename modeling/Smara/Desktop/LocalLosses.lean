import Smara.Desktop.LocalTasks
import Smara.Lib.Machine

/-! # Local tasks that are lost

A mutation writes back what it has read. A reading that fails is one of no tasks, and a new task takes the place of the
last one when the file is full.

* `Saved`: the mutation raises and leaves the file, or every active task is still in it.
* `Sound`: a reading that fails is followed by a mutation that raises, and a new task takes the place of no active one.
* `saved_iff`: the first along every run exactly when the second. -/

namespace Smara.Desktop.LocalLosses

open Lib.Machine Lib.Table Desktop.LocalTasks
open TaskStore.Lifecycle (clip)

/-! ### Saved tasks -/

def Active (t : Task) : Prop := t.status ∉ terminalStatuses

instance : DecidablePred Active := fun t => inferInstanceAs (Decidable (t.status ∉ terminalStatuses))

def Addressed (op : Op) (file : List Task) (t : Task) : Prop :=
  file.find? (fun x => op.selects x) = some t ∨ op = .recoverInterrupted ∧ t.status ∈ [.running, .cancelling]

/-- The number of tasks that a mutation adds. -/
def Op.news : Op → ℕ
  | .create _ => 1
  | _ => 0

/-- The mutation raises and leaves the file, or every active task of it is still there, besides the new one, and was
changed only if the mutation is about it. -/
def Saved (store : LocalTaskStore) (file : List Task) (c : Call) : Prop :=
  (∃ e, perform store c file = (.error e, file)) ∨
    ∀ t ∈ file, Active t →
      ∃ t' ∈ (perform store c file).2.drop (Op.news c.op), t'.id = t.id ∧ (t' ≠ t → Addressed c.op file t)

/-! ### The condition -/

def drawnId (env : Env) : String := "local_" ++ clip 20 (env.hex 0)

/-- The checks of `create`. -/
def Draft.Valid (d : Draft) : Prop :=
  (cleanText d.title "title" (some 160)).isOk = true ∧ (cleanText d.objective "objective" none).isOk = true ∧
    (d.approvalMode = "ask" ∨ d.approvalMode = "auto") ∧ (cleanCapability d.requiredCapability).isOk = true ∧
      ∀ payload ∈ d.payload, payload.text.utf8ByteSize ≤ 64 * 1024

/-- No active task has the id that is drawn, and none is among those for which there is no place. -/
def Room (store : LocalTaskStore) (file : List Task) (taskId : String) : Prop :=
  (∀ t ∈ file, Active t → t.id ≠ taskId) ∧
    ∀ t ∈ (file.filter fun t => t.id ≠ taskId).drop (store.maxEntries - 1), ¬ Active t

def Idle (disk : Disk) (file : List Task) : Prop :=
  disk.locked = false ∨ disk.written = false ∨ ∀ t ∈ file, ¬ Active t

def Sound (store : LocalTaskStore) (file : List Task) (c : Call) : Prop :=
  match c.op with
  | .create d => ¬ Draft.Valid d ∨ Idle c.disk file ∨ c.disk.fault = none ∧ Room store file (drawnId c.env)
  | .claim _ => Idle c.disk file ∨ c.disk.fault = none
  | .recoverInterrupted => Idle c.disk file ∨ c.disk.fault = none
  | _ => True

/-- What mutations leave in the file. -/
structure Stored (store : LocalTaskStore) (file : List Task) : Prop where
  keyed : Keyed Task.id file
  length : file.length ≤ store.maxEntries

section Step
variable {store : LocalTaskStore} {file : List Task} {c : Call}

theorem Stored.read (h : Stored store file) {disk : Disk} (hfault : disk.fault = none) : read store disk file = file := by
  unfold LocalTasks.read
  rw [hfault]
  exact List.take_of_length_le h.length

theorem read_fault {disk : Disk} (hfault : disk.fault ≠ none) : read store disk file = [] := by
  unfold LocalTasks.read
  cases hf : disk.fault with
  | none => exact absurd hf hfault
  | some f => rfl

theorem mem_tasks_of_split {disk : Disk} {pre post : List Task} {t : Task}
    (hsplit : LocalTasks.read store disk file = pre ++ t :: post) : disk.fault = none := by
  by_contra hfault
  rw [read_fault hfault] at hsplit
  simp at hsplit

theorem newTask_id {env : Env} {d : Draft} {task : Task} (h : newTask env d = .ok task) : task.id = drawnId env := by
  unfold newTask at h
  split at h
  · cases h
  · cases h
  · split_ifs at h
    · split at h
      · cases h
      · cases h
    split at h
    · cases h
    · cases h
      rfl

theorem isOk_iff {α : Type} {x : Except Err α} : x.isOk = true ↔ ∃ a, x = .ok a := by
  cases x with
  | error e => simp [Except.isOk, Except.toBool]
  | ok a => simp [Except.isOk, Except.toBool]

theorem newTask_iff {env : Env} {d : Draft} : (∃ task, newTask env d = .ok task) ↔ Draft.Valid d := by
  simp only [Draft.Valid, isOk_iff]
  constructor
  · rintro ⟨task, h⟩
    unfold newTask at h
    split at h
    · cases h
    · cases h
    · next title objective htitle hobjective =>
      by_cases hmode : d.approvalMode ≠ "ask" ∧ d.approvalMode ≠ "auto"
      · rw [if_pos hmode] at h
        cases h
      rw [if_neg hmode] at h
      split at h
      · cases h
      · next capability hcapability =>
        by_cases hsize : ∃ payload ∈ d.payload, 64 * 1024 < payload.text.utf8ByteSize
        · rw [if_pos hsize] at h
          cases h
        · refine ⟨⟨_, htitle⟩, ⟨_, hobjective⟩, by grind, ⟨_, hcapability⟩, fun payload hpayload => ?_⟩
          by_contra hlarge
          exact hsize ⟨payload, hpayload, not_le.mp hlarge⟩
  · rintro ⟨⟨title, htitle⟩, ⟨objective, hobjective⟩, hmode, ⟨capability, hcapability⟩, hsize⟩
    have hmode' : ¬ (d.approvalMode ≠ "ask" ∧ d.approvalMode ≠ "auto") := by grind
    have hsize' : ¬ ∃ payload ∈ d.payload, 64 * 1024 < payload.text.utf8ByteSize := by
      rintro ⟨payload, hpayload, hlarge⟩
      exact absurd (hsize payload hpayload) (not_le.mpr hlarge)
    unfold newTask
    simp only [htitle, hobjective, hcapability, if_neg hmode', if_neg hsize']
    exact ⟨_, rfl⟩

/-! ### One mutation -/

theorem stored_nil : Stored store [] := ⟨List.nodup_nil, Nat.zero_le _⟩

theorem map_id_changed {pre post : List Task} {t t' : Task} (hid : t'.id = t.id) :
    (pre ++ t' :: post).map Task.id = (pre ++ t :: post).map Task.id := by
  simp [hid]

theorem map_id_recovered {env : Env} {tasks tasks' : List Task} (hmap : tasks.mapM (recoverTask env) = .ok tasks') :
    tasks'.map Task.id = tasks.map Task.id := by
  have hrel := forall₂_recoverTask hmap
  clear hmap
  induction hrel with
  | nil => rfl
  | cons h _ ih => rw [List.map_cons, List.map_cons, ih, (recoverTask_spec h).1.id]

theorem Stored.step (h : Stored store file) (c : Call) : Stored store (perform store c file).2 := by
  rcases perform_cases store c file with ⟨e, heq⟩ | ⟨v, tasks, -, -, heffect, heq⟩
  · rw [heq]
    exact h
  · rw [heq]
    have hsub := read_sublist store c.disk file
    have hkeyed : Keyed Task.id (LocalTasks.read store c.disk file) := h.keyed.sublist (hsub.map _)
    refine ⟨?_, List.length_take_le _ _⟩
    suffices hnodup : Keyed Task.id tasks from hnodup.sublist ((List.take_sublist _ tasks).map _)
    generalize LocalTasks.read store c.disk file = old at hkeyed heffect
    cases heffect with
    | created hop hnew =>
      refine List.nodup_cons.mpr ⟨fun hmem => ?_, hkeyed.sublist (List.filter_sublist.map _)⟩
      obtain ⟨t, ht, hid⟩ := List.mem_map.mp hmem
      simpa [hid] using (List.mem_filter.mp ht).2
    | changed hsplit hfirst hchanges =>
      subst hsplit
      rw [Keyed, map_id_changed hchanges.legal.id]
      exact hkeyed
    | unclaimed hop => exact hkeyed
    | recovered hop hmap =>
      rw [Keyed, map_id_recovered hmap]
      exact hkeyed

/-- Every active task is in a file of which no more than the last ones for which there is no place are missing. -/
theorem mem_take_of_room {taskId : String} (hroom : Room store file taskId) {t : Task} (ht : t ∈ file)
    (hactive : Active t) : t ∈ (file.filter fun t => t.id ≠ taskId).take (store.maxEntries - 1) := by
  have hmem : t ∈ file.filter fun t => t.id ≠ taskId :=
    List.mem_filter.mpr ⟨ht, by simpa using hroom.1 t ht hactive⟩
  rw [← List.take_append_drop (store.maxEntries - 1) (file.filter fun t => t.id ≠ taskId), List.mem_append] at hmem
  rcases hmem with hmem | hmem
  · exact hmem
  · exact absurd hactive (hroom.2 t hmem)

theorem room_of_mem_take {taskId : String} (hstored : Stored store file)
    (h : ∀ t ∈ file, Active t → ∃ t' ∈ (file.filter fun t => t.id ≠ taskId).take (store.maxEntries - 1), t'.id = t.id) :
    Room store file taskId := by
  refine ⟨fun t ht hactive hid => ?_, fun t ht hactive => ?_⟩
  · obtain ⟨t', ht', hid'⟩ := h t ht hactive
    have hne := (List.mem_filter.mp (List.mem_of_mem_take ht')).2
    simp [hid', hid] at hne
  · have hfile : t ∈ file := (List.mem_filter.mp (List.mem_of_mem_drop ht)).1
    obtain ⟨t', ht', hid'⟩ := h t hfile hactive
    have hkeyed : Keyed Task.id (file.filter fun t => t.id ≠ taskId) := hstored.keyed.sublist (List.filter_sublist.map _)
    rw [Keyed, ← List.take_append_drop (store.maxEntries - 1) (file.filter fun t => t.id ≠ taskId), List.map_append] at hkeyed
    exact (List.nodup_append.mp hkeyed).2.2 _ (List.mem_map_of_mem ht') _ (List.mem_map_of_mem ht) hid'

theorem perform_create {d : Draft} {task : Task} (hop : c.op = .create d) (hnew : newTask c.env d = .ok task)
    (hlocked : c.disk.locked = true) (hwritten : c.disk.written = true) :
    perform store c file = (.ok (.summary task.summary),
      (task :: (LocalTasks.read store c.disk file).filter fun t => t.id ≠ task.id).take store.maxEntries) := by
  simp only [perform, hop, create, hnew, mutation, hlocked, hwritten, if_true]
  rfl

theorem perform_empty (hop : (∃ target, c.op = .claim target) ∨ c.op = .recoverInterrupted)
    (hfault : c.disk.fault ≠ none) (hlocked : c.disk.locked = true) (hwritten : c.disk.written = true) :
    ∃ v, perform store c file = (.ok v, []) := by
  rcases hop with ⟨target, hop⟩ | hop
  · refine ⟨.claimed none, ?_⟩
    simp only [perform, hop, claim, mutation, hlocked, hwritten, if_true, read_fault hfault, change, List.find?_nil,
      List.take_nil]
    rfl
  · refine ⟨.recovered [], ?_⟩
    have hbody : perform store c file = (.ok (.recovered []), ([] : List Task).take store.maxEntries) := by
      simp only [perform, hop, recoverInterrupted, mutation, hlocked, hwritten, if_true, read_fault hfault]
      rfl
    rw [hbody, List.take_nil]

theorem take_pred_cons {α : Type} {a : α} {l : List α} {n : ℕ} (hn : 1 ≤ n) :
    (a :: l).take n = a :: l.take (n - 1) := by
  obtain ⟨n, rfl⟩ : ∃ m, n = m + 1 := ⟨n - 1, by omega⟩
  rfl

theorem idle_of_not (h : ¬ Idle c.disk file) :
    c.disk.locked = true ∧ c.disk.written = true ∧ ∃ t ∈ file, Active t := by
  simp only [Idle, not_or, not_forall, not_not] at h
  obtain ⟨hlocked, hwritten, t, ht, hactive⟩ := h
  exact ⟨by simpa using hlocked, by simpa using hwritten, t, ht, hactive⟩

theorem saved_of_sound (hstored : Stored store file) (h : Sound store file c) : Saved store file c := by
  rcases perform_cases store c file with ⟨e, heq⟩ | ⟨v, tasks, hlocked, hwritten, heffect, heq⟩
  · exact Or.inl ⟨e, heq⟩
  right
  rw [heq]
  have hidle : ∀ {P : Prop}, Idle c.disk file ∨ P → (∀ t ∈ file, ¬ Active t) ∨ P := by
    rintro P ((hl | hw | hnone) | hP)
    · rw [hlocked] at hl
      cases hl
    · rw [hwritten] at hw
      cases hw
    · exact Or.inl hnone
    · exact Or.inr hP
  generalize hold : LocalTasks.read store c.disk file = old at heffect
  intro t ht hactive
  cases heffect with
  | created hop hnew =>
    next d task =>
    have hroom : c.disk.fault = none ∧ Room store file task.id := by
      rw [Sound, hop] at h
      rcases h with hinvalid | h
      · exact absurd (newTask_iff.mp ⟨task, hnew⟩) hinvalid
      · rcases hidle h with hnone | h
        · exact absurd hactive (hnone t ht)
        · rw [newTask_id hnew]
          exact h
    rw [hstored.read hroom.1] at hold
    subst hold
    refine ⟨t, ?_, rfl, fun hne => absurd rfl hne⟩
    have hone : 1 ≤ store.maxEntries := by
      have := store.bounds.1
      omega
    simp only [Op.news, hop, take_pred_cons hone, List.drop_succ_cons, List.drop_zero]
    exact mem_take_of_room hroom.2 ht hactive
  | changed hsplit hfirst hchanges =>
    next pre u u' post =>
    have hfault := mem_tasks_of_split (hold.trans hsplit)
    rw [hstored.read hfault] at hold
    subst hold
    subst hsplit
    have hlength : (pre ++ u' :: post).length ≤ store.maxEntries := by
      have := hstored.length
      simpa using this
    have hnews : Op.news c.op = 0 := by
      cases hop : c.op with
      | create d =>
        rw [hop] at hchanges
        exact hchanges.elim
      | _ => rfl
    rw [hnews, List.drop_zero, List.take_of_length_le hlength]
    rw [List.mem_append, List.mem_cons] at ht
    rcases ht with hpre | rfl | hpost
    · exact ⟨t, by simp [hpre], rfl, fun hne => absurd rfl hne⟩
    · refine ⟨u', by simp, hchanges.legal.id, fun _ => Or.inl ?_⟩
      exact List.find?_eq_some_iff_append.mpr ⟨hfirst.1, pre, post, rfl, fun x hx => by simp [hfirst.2 x hx]⟩
    · exact ⟨t, by simp [hpost], rfl, fun hne => absurd rfl hne⟩
  | unclaimed hop =>
    next target =>
    have hfault : c.disk.fault = none := by
      rw [Sound, hop] at h
      rcases hidle h with hnone | hfault
      · exact absurd hactive (hnone t ht)
      · exact hfault
    rw [hstored.read hfault] at hold
    subst hold
    rw [hop, List.take_of_length_le hstored.length]
    exact ⟨t, ht, rfl, fun hne => absurd rfl hne⟩
  | recovered hop hmap =>
    next tasks' =>
    have hfault : c.disk.fault = none := by
      rw [Sound, hop] at h
      rcases hidle h with hnone | hfault
      · exact absurd hactive (hnone t ht)
      · exact hfault
    rw [hstored.read hfault] at hold
    subst hold
    have hrel := forall₂_recoverTask hmap
    have hlength : tasks.length ≤ store.maxEntries := by
      rw [← hrel.length_eq]
      exact hstored.length
    rw [hop, List.take_of_length_le hlength]
    obtain ⟨i, hi, rfl⟩ := List.getElem_of_mem ht
    have hi' : i < tasks.length := by
      rw [← hrel.length_eq]
      exact hi
    obtain ⟨hlegal, hcase⟩ := recoverTask_spec (hrel.get hi hi')
    refine ⟨tasks[i], List.getElem_mem hi', hlegal.id, fun hne => Or.inr ⟨rfl, ?_⟩⟩
    rcases hcase with hsame | ⟨hrunning, -⟩
    · exact absurd hsame hne
    · exact hrunning

theorem sound_of_saved (hstored : Stored store file) (h : Saved store file c) : Sound store file c := by
  have hempty : ∀ (hop : (∃ target, c.op = .claim target) ∨ c.op = .recoverInterrupted),
      Idle c.disk file ∨ c.disk.fault = none := by
    intro hop
    by_contra hnot
    obtain ⟨hbusy, hfault⟩ := not_or.mp hnot
    obtain ⟨hlocked, hwritten, t, ht, hactive⟩ := idle_of_not hbusy
    obtain ⟨v, heq⟩ : ∃ v, perform store c file = (.ok v, []) := perform_empty hop hfault hlocked hwritten
    rcases h with ⟨e, herror⟩ | h
    · rw [heq] at herror
      cases herror
    · obtain ⟨t', ht', -⟩ := h t ht hactive
      rw [heq, List.drop_nil] at ht'
      cases ht'
  unfold Sound
  split
  · next d hop =>
    by_contra hnot
    simp only [not_or, not_not] at hnot
    obtain ⟨hvalid, hbusy, hroom⟩ := hnot
    obtain ⟨hlocked, hwritten, t, ht, hactive⟩ := idle_of_not hbusy
    obtain ⟨task, hnew⟩ : ∃ task, newTask c.env d = .ok task := newTask_iff.mpr hvalid
    have heq : perform store c file = _ := perform_create hop hnew hlocked hwritten
    have hone : 1 ≤ store.maxEntries := by
      have := store.bounds.1
      omega
    rcases h with ⟨e, herror⟩ | h
    · rw [heq] at herror
      cases herror
    rw [heq] at h
    simp only [Op.news, hop, take_pred_cons hone, List.drop_succ_cons, List.drop_zero] at h
    by_cases hfault : c.disk.fault = none
    · rw [hstored.read hfault, newTask_id hnew] at h
      refine hroom ⟨hfault, room_of_mem_take hstored fun u hu hu' => ?_⟩
      obtain ⟨u', hmem, hid, -⟩ := h u hu hu'
      exact ⟨u', hmem, hid⟩
    · obtain ⟨t', ht', -⟩ := h t ht hactive
      rw [read_fault hfault] at ht'
      simp at ht'
  · next target hop => exact hempty (Or.inl ⟨target, hop⟩)
  · next hop => exact hempty (Or.inr hop)
  · trivial

end Step

/-! ### All runs -/

/-- **No active task is lost**: along a run of mutations each of them raises and leaves the file, or leaves every
active task in it, exactly when each of them meets the condition. -/
theorem saved_iff (store : LocalTaskStore) (calls : List Call) :
    Along (fun file c => (perform store c file).2) (Saved store) [] calls ↔
      Along (fun file c => (perform store c file).2) (Sound store) [] calls :=
  along_iff_of_inv (I := Stored store) (fun _ c h _ => h.step c)
    (fun _ _ h => ⟨sound_of_saved h, saved_of_sound h⟩) stored_nil

/-- Two tasks are created; the reading of the second mutation fails with an `OSError`. -/
def unreadable : List Call :=
  let draft : Draft := { title := "Report", objective := "Write it" }
  [⟨.create draft, { clock := fun _ => "2024-01-01T00:00:00Z", hex := fun _ => "0" }, {}⟩,
    ⟨.create draft, { clock := fun _ => "2024-01-02T00:00:00Z", hex := fun _ => "1" }, { fault := some .osError }⟩]

/-- The first task is lost. -/
theorem not_saved_unreadable :
    ¬ Along (fun file c => (perform (.new 200) c file).2) (Saved (.new 200)) [] unreadable := by
  rintro ⟨-, ⟨e, herror⟩ | h, -⟩
  · have hok : (perform (.new 200) unreadable[1] (perform (.new 200) unreadable[0] []).2).1.isOk = true := by
      decide
    have hraised := congrArg (fun r => r.1.isOk) herror
    cases hok.symm.trans hraised
  · have hmem : ∃ t ∈ (perform (.new 200) unreadable[0] []).2, Active t := by decide
    obtain ⟨t, ht, hactive⟩ := hmem
    obtain ⟨t', ht', -⟩ := h t ht hactive
    have hnone : (perform (.new 200) unreadable[1] (perform (.new 200) unreadable[0] []).2).2.drop 1 = [] := by
      decide
    have hmem : t' ∈ (perform (.new 200) unreadable[1] (perform (.new 200) unreadable[0] []).2).2.drop 1 := ht'
    rw [hnone] at hmem
    cases hmem

end Smara.Desktop.LocalLosses
