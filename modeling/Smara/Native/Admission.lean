import Mathlib
import Smara.Lib.Machine
import Smara.Lib.Table
import Smara.Lib.Window

/-! # Admission of requests to a provider

The processes of an account share a database, with a lease for every stream that is open and a row for every request of the
last minute. A pass of `acquire` reads the clock, and then begins its transaction; a thread renews the lease of a slot.

* `acquire`, `renew`, `release`: the transactions.
* `step`: the passes, the renewals and the ends of any slots, in any order.
* `admission_bounds`: the limits hold in a run whose passes begin in the order in which they read the clock.
* `leases_outlast_streams`: no stream is open without a lease, if no pass runs after the end of the lease of an open one. -/

namespace Smara.Native.Admission

open Lib.Machine Lib.Table Lib.Window

abbrev Time := ℚ

structure Limits where
  concurrent : ℕ
  perMinute : ℕ
  leaseSeconds : Time
  valid : 1 ≤ concurrent ∧ 1 ≤ perMinute ∧ 1 ≤ leaseSeconds

/-! ### The database -/

/-- A row of `provider_leases`. -/
structure Lease where
  id : ℕ
  provider : String
  expires : Time
  deriving DecidableEq

/-- The tables. A row of `provider_requests` is the provider and when it was created. -/
structure Db where
  leases : List Lease := []
  requests : List (String × Time) := []

def purge (now : Time) (db : Db) : Db where
  leases := deleteWhere (fun r => r.expires ≤ now) db.leases
  requests := deleteWhere (fun x => x.2 ≤ now - 60) db.requests

def Room (limits : Limits) (provider : String) (db : Db) : Prop :=
  db.leases.countP (fun r => r.provider = provider) < limits.concurrent ∧
    db.requests.countP (fun x => x.1 = provider) < limits.perMinute

instance (limits : Limits) (provider : String) : DecidablePred (Room limits provider) := fun _ =>
  inferInstanceAs (Decidable (_ ∧ _))

/-- The transaction of one pass of `acquire`: whether the request is admitted, and the tables. -/
def acquire (limits : Limits) (provider : String) (id : ℕ) (now : Time) (db : Db) : Bool × Db :=
  if Room limits provider (purge now db) then
    (true, { leases := (purge now db).leases ++ [⟨id, provider, now + limits.leaseSeconds⟩],
             requests := (purge now db).requests ++ [(provider, now)] })
  else (false, purge now db)

/-- The `UPDATE` of the thread of a slot. -/
def renew (limits : Limits) (provider : String) (id : ℕ) (now : Time) (db : Db) : Db :=
  { db with
    leases := updateWhere (fun r => r.id = id ∧ r.provider = provider) (fun r => { r with expires := now + limits.leaseSeconds })
      db.leases }

def release (provider : String) (id : ℕ) (db : Db) : Db :=
  { db with leases := deleteWhere (fun r => r.id = id ∧ r.provider = provider) db.leases }

/-! ### Slots -/

/-- A slot whose body runs. -/
structure Holder where
  id : ℕ
  provider : String
  /-- The event is set that cancels the request. -/
  cancelled : Bool := false
  /-- `on_lost` was called, and the thread of the slot is over. -/
  lost : Bool := false

structure State where
  clock : Time
  db : Db := {}
  holders : List Holder := []
  /-- The slots that were admitted. -/
  admitted : List ℕ := []
  /-- The requests that were admitted, with the clock of their pass. -/
  acquired : List (String × Time) := []
  /-- The clock of every pass. -/
  reads : List Time := []

inductive Event
  | advance (clock : Time)
  /-- A pass of `acquire`, with the clock as it was read before. -/
  | acquire (id : ℕ) (provider : String) (read : Time)
  /-- A tick of the thread of a slot. -/
  | renew (id : ℕ) (read : Time) (raises : Bool)
  | cancel (id : ℕ)
  /-- The end of a slot, or of its process. -/
  | exit (id : ℕ) (released : Bool)

def step (limits : Limits) (s : State) : Event → State
  | .advance clock => { s with clock := max s.clock clock }
  | .acquire id provider read =>
    if id ∈ s.admitted then s
    else
      match acquire limits provider id (min read s.clock) s.db with
      | (true, db) =>
        { s with
          db
          holders := s.holders ++ [{ id, provider }]
          admitted := id :: s.admitted
          acquired := s.acquired ++ [(provider, min read s.clock)]
          reads := min read s.clock :: s.reads }
      | (false, db) => { s with db, reads := min read s.clock :: s.reads }
  | .renew id read raises =>
    match lookup Holder.id id s.holders with
    | none => s
    | some h =>
      if h.lost then s
      else if raises then
        { s with holders := updateWhere (fun h => h.id = id) (fun h => { h with cancelled := true, lost := true }) s.holders }
      else { s with db := renew limits h.provider id (min read s.clock) s.db }
  | .cancel id => { s with holders := updateWhere (fun h => h.id = id) (fun h => { h with cancelled := true }) s.holders }
  | .exit id released =>
    match lookup Holder.id id s.holders with
    | none => s
    | some h =>
      { s with
        holders := deleteWhere (fun h => h.id = id) s.holders
        db := if released then release h.provider id s.db else s.db }

/-! ### What is to hold -/

/-- The request counts in the minute that ends at the time. -/
def Within (created t : Time) : Prop := t - 60 < created

instance : DecidableRel Within := fun _ _ => inferInstanceAs (Decidable (_ < _))

/-- The limits: on the leases that have not expired, and on the admissions of every minute. -/
structure Bounds (limits : Limits) (s : State) : Prop where
  leases : ∀ provider, s.db.leases.countP (fun r => r.provider = provider ∧ s.clock < r.expires) ≤ limits.concurrent
  requests : ∀ (provider : String) (t : Time),
    s.acquired.countP (fun x => x.1 = provider ∧ t - 60 < x.2 ∧ x.2 ≤ t) ≤ limits.perMinute

structure Charged (s : State) : Prop where
  leases : ∀ r ∈ s.db.leases, r.id ∈ s.admitted
  requests : s.db.requests.Sublist s.acquired

/-- A pass that is refused leaves no row. -/
def LeavesNothing (limits : Limits) (s : State) : Event → Prop
  | .acquire id provider read => (acquire limits provider id (min read s.clock) s.db).1 = false →
    (step limits s (.acquire id provider read)).db.leases.Sublist s.db.leases ∧
      (step limits s (.acquire id provider read)).db.requests.Sublist s.db.requests
  | _ => True

/-- A pass does not begin after one that read the clock later. -/
def Ordered (s : State) : Event → Prop
  | .acquire _ _ read => ∀ t ∈ s.reads, t ≤ min read s.clock
  | _ => True

instance (s : State) (e : Event) : Decidable (Ordered s e) := by
  unfold Ordered
  split <;> infer_instance

def Covered (s : State) (h : Holder) : Prop :=
  (∃ r ∈ s.db.leases, r.id = h.id ∧ r.provider = h.provider ∧ s.clock < r.expires) ∨ (h.cancelled = true ∧ h.lost = true)

/-- After a tick of its thread the holder is covered. -/
def Covers (limits : Limits) (s : State) : Event → Prop
  | .renew id read raises => ∀ h ∈ (step limits s (.renew id read raises)).holders, h.id = id →
    Covered (step limits s (.renew id read raises)) h
  | _ => True

def streams (provider : String) (s : State) : ℕ := s.holders.countP fun h => h.provider = provider ∧ h.cancelled = false

/-- A pass does not run after the end of the lease of a slot that was not told to end, and a renewal is written before it is
over. -/
def Timely (limits : Limits) (s : State) : Event → Prop
  | .acquire _ _ read => ∀ h ∈ s.holders, ¬ (h.cancelled = true ∧ h.lost = true) →
    ∀ r ∈ s.db.leases, r.id = h.id → min read s.clock < r.expires
  | .renew _ read _ => s.clock < min read s.clock + limits.leaseSeconds
  | _ => True

instance (limits : Limits) (s : State) (e : Event) : Decidable (Timely limits s e) := by
  unfold Timely
  split <;> infer_instance

section Proofs
variable {limits : Limits} {s : State} {db : Db} {provider : String} {id : ℕ} {now : Time}

/-! ### The tables -/

/-- What holds of the rows and the holders. -/
structure Inv (limits : Limits) (s : State) : Prop where
  rows : ∀ provider, s.db.leases.countP (fun r => r.provider = provider) ≤ limits.concurrent
  keyed : Keyed Lease.id s.db.leases
  leases : ∀ r ∈ s.db.leases, r.id ∈ s.admitted
  requests : s.db.requests.Sublist s.acquired
  holders : Keyed Holder.id s.holders
  known : ∀ h ∈ s.holders, h.id ∈ s.admitted

theorem purge_leases : (purge now db).leases.Sublist db.leases := List.filter_sublist

theorem purge_requests : (purge now db).requests.Sublist db.requests := List.filter_sublist

theorem acquire_admits (h : Room limits provider (purge now db)) : acquire limits provider id now db =
    (true, ⟨(purge now db).leases ++ [⟨id, provider, now + limits.leaseSeconds⟩], (purge now db).requests ++ [(provider, now)]⟩) :=
  if_pos h

theorem acquire_refuses (h : ¬ Room limits provider (purge now db)) :
    acquire limits provider id now db = (false, purge now db) := if_neg h

/-- **What a pass does**: nothing, or it admits the request, or it refuses it. -/
theorem step_acquire (limits : Limits) (s : State) (id : ℕ) (provider : String) (read : Time) :
    (id ∈ s.admitted ∧ step limits s (.acquire id provider read) = s) ∨
    (id ∉ s.admitted ∧ Room limits provider (purge (min read s.clock) s.db) ∧
      step limits s (.acquire id provider read) = { s with
        db := ⟨(purge (min read s.clock) s.db).leases ++ [⟨id, provider, min read s.clock + limits.leaseSeconds⟩],
          (purge (min read s.clock) s.db).requests ++ [(provider, min read s.clock)]⟩
        holders := s.holders ++ [{ id, provider }]
        admitted := id :: s.admitted
        acquired := s.acquired ++ [(provider, min read s.clock)]
        reads := min read s.clock :: s.reads }) ∨
    (id ∉ s.admitted ∧ ¬ Room limits provider (purge (min read s.clock) s.db) ∧
      step limits s (.acquire id provider read) =
        { s with db := purge (min read s.clock) s.db, reads := min read s.clock :: s.reads }) := by
  by_cases hid : id ∈ s.admitted
  · exact Or.inl ⟨hid, by simp only [step, if_pos hid]⟩
  · by_cases hroom : Room limits provider (purge (min read s.clock) s.db)
    · exact Or.inr (Or.inl ⟨hid, hroom, by simp only [step, if_neg hid, acquire_admits hroom]⟩)
    · exact Or.inr (Or.inr ⟨hid, hroom, by simp only [step, if_neg hid, acquire_refuses hroom]⟩)

theorem Inv.fewer (hinv : Inv limits s) (db : Db) (reads : List Time) (hl : db.leases.Sublist s.db.leases)
    (hr : db.requests.Sublist s.db.requests) : Inv limits { s with db, reads } :=
  ⟨fun provider => hl.countP_le.trans (hinv.rows provider), hinv.keyed.sublist (hl.map _), fun r h => hinv.leases r (hl.subset h),
    hr.trans hinv.requests, hinv.holders, hinv.known⟩

theorem Inv.told (hinv : Inv limits s) {holders : List Holder} (hids : (holders.map Holder.id).Sublist (s.holders.map Holder.id)) :
    Inv limits { s with holders } := by
  refine ⟨hinv.rows, hinv.keyed, hinv.leases, hinv.requests, hinv.holders.sublist hids, fun h hh => ?_⟩
  obtain ⟨h', hh', heq⟩ := List.mem_map.mp (hids.subset (List.mem_map_of_mem hh))
  rw [← heq]
  exact hinv.known h' hh'

theorem ids_told {f : Holder → Holder} (hf : ∀ h, (f h).id = h.id) :
    ((updateWhere (fun h => h.id = id) f s.holders).map Holder.id).Sublist (s.holders.map Holder.id) := by
  rw [map_updateWhere fun h _ => hf h]

theorem countP_renew {provider' : String} :
    (renew limits provider id now db).leases.countP (fun r => r.provider = provider') =
      db.leases.countP fun r => r.provider = provider' := by
  unfold renew updateWhere
  rw [List.countP_map]
  refine List.countP_congr fun r _ => ?_
  simp only [Function.comp_apply]
  split_ifs <;> rfl

theorem ids_renew : (renew limits provider id now db).leases.map Lease.id = db.leases.map Lease.id :=
  map_updateWhere fun _ _ => rfl

theorem Inv.renewed (hinv : Inv limits s) : Inv limits { s with db := renew limits provider id now s.db } := by
  refine ⟨fun provider' => ?_, ?_, fun r hr => ?_, hinv.requests, hinv.holders, hinv.known⟩
  · rw [countP_renew]
    exact hinv.rows provider'
  · show ((renew limits provider id now s.db).leases.map Lease.id).Nodup
    rw [ids_renew]
    exact hinv.keyed
  · have hid : r.id ∈ (renew limits provider id now s.db).leases.map Lease.id := List.mem_map_of_mem hr
    rw [ids_renew] at hid
    obtain ⟨r', hr', heq⟩ := List.mem_map.mp hid
    rw [← heq]
    exact hinv.leases r' hr'

theorem Inv.admits (hinv : Inv limits s) {t : Time} (hid : id ∉ s.admitted) (hroom : Room limits provider (purge now s.db)) :
    Inv limits { s with
      db := ⟨(purge now s.db).leases ++ [⟨id, provider, t⟩], (purge now s.db).requests ++ [(provider, now)]⟩
      holders := s.holders ++ [{ id, provider }]
      admitted := id :: s.admitted
      acquired := s.acquired ++ [(provider, now)]
      reads := now :: s.reads } := by
  refine ⟨fun provider' => ?_, ?_, fun r hr => ?_, ?_, ?_, fun h hh => ?_⟩
  · rw [List.countP_append, List.countP_singleton]
    split_ifs with heq
    · obtain rfl : provider = provider' := of_decide_eq_true heq
      exact hroom.1
    · have hfewer : (purge now s.db).leases.Sublist s.db.leases := purge_leases
      have hle := hfewer.countP_le.trans (hinv.rows provider')
      omega
  · refine keyed_append.mpr ⟨hinv.keyed.sublist (purge_leases.map _), List.nodup_singleton _, fun r hr r' hr' heq => ?_⟩
    obtain rfl := List.mem_singleton.mp hr'
    have hmem := hinv.leases r (purge_leases.subset hr)
    rw [show r.id = id from heq] at hmem
    exact hid hmem
  · rcases List.mem_append.mp hr with hr | hr
    · exact List.mem_cons_of_mem _ (hinv.leases r (purge_leases.subset hr))
    · obtain rfl := List.mem_singleton.mp hr
      exact List.mem_cons_self
  · exact (purge_requests.trans hinv.requests).append (List.Sublist.refl _)
  · refine keyed_append.mpr ⟨hinv.holders, List.nodup_singleton _, fun h hh h' hh' heq => ?_⟩
    obtain rfl := List.mem_singleton.mp hh'
    have hmem := hinv.known h hh
    rw [show h.id = id from heq] at hmem
    exact hid hmem
  · rcases List.mem_append.mp hh with hh | hh
    · exact List.mem_cons_of_mem _ (hinv.known h hh)
    · obtain rfl := List.mem_singleton.mp hh
      exact List.mem_cons_self

theorem inv_step (hinv : Inv limits s) (e : Event) : Inv limits (step limits s e) := by
  cases e with
  | advance clock => exact ⟨hinv.rows, hinv.keyed, hinv.leases, hinv.requests, hinv.holders, hinv.known⟩
  | acquire id provider read =>
    rcases step_acquire limits s id provider read with ⟨-, heq⟩ | ⟨hid, hroom, heq⟩ | ⟨-, -, heq⟩
    · rw [heq]
      exact hinv
    · rw [heq]
      exact hinv.admits hid hroom
    · rw [heq]
      exact hinv.fewer _ _ purge_leases purge_requests
  | renew id read raises =>
    simp only [step]
    split
    · exact hinv
    · split_ifs
      · exact hinv
      · exact hinv.told (ids_told fun _ => rfl)
      · exact hinv.renewed
  | cancel id => exact hinv.told (ids_told fun _ => rfl)
  | exit id released =>
    simp only [step]
    split
    · exact hinv
    · next h _ =>
      have htold : Inv limits { s with holders := deleteWhere (fun h => h.id = id) s.holders } := hinv.told (List.filter_sublist.map _)
      split_ifs
      · exact htold.fewer (release h.provider id s.db) s.reads List.filter_sublist (List.Sublist.refl _)
      · exact htold

theorem inv_start {clock : Time} : Inv limits { clock } :=
  ⟨fun _ => Nat.zero_le _, List.nodup_nil, by simp, List.Sublist.refl _, List.nodup_nil, by simp⟩

/-! ### Every minute -/

/-- What the requests that were admitted have to do with the rows, in a run in order. -/
structure Windows (limits : Limits) (s : State) : Prop where
  table : s.db.requests = s.acquired.filter fun x => ∀ t ∈ s.reads, Within x.2 t
  past : ∀ x ∈ s.acquired, x.2 ∈ s.reads
  bounded : Bounded Within limits.perMinute s.acquired

theorem windows_start {clock : Time} : Windows limits { clock } := ⟨rfl, by simp, bounded_nil⟩

theorem within_mono (x y t : Time) (_ : x ≤ y) (hyt : y ≤ t) (h : Within x t) : Within x y := by
  unfold Within at *
  linarith

theorem Windows.purged (h : Windows limits s) :
    (purge now s.db).requests = s.acquired.filter fun x => ∀ t ∈ now :: s.reads, Within x.2 t := by
  show s.db.requests.filter _ = _
  rw [h.table, List.filter_filter]
  refine List.filter_congr fun x _ => ?_
  simp only [List.forall_mem_cons, Bool.decide_and]
  congr 1
  exact decide_eq_decide.mpr not_le

theorem Windows.admits (h : Windows limits s) (hlater : ∀ t ∈ s.reads, t ≤ now)
    (hroom : Room limits provider (purge now s.db)) : Bounded Within limits.perMinute (s.acquired ++ [(provider, now)]) := by
  have hpast : ∀ x ∈ s.acquired, x.2 ≤ now := fun x hx => hlater _ (h.past x hx)
  have hcount : s.acquired.countP (fun x => x.1 = provider ∧ Within x.2 now) < limits.perMinute := by
    have hlt := hroom.2
    rw [h.purged, List.countP_filter] at hlt
    refine lt_of_le_of_lt (List.countP_mono_left fun x hx hcounts => ?_) hlt
    simp only [decide_eq_true_eq, Bool.and_eq_true] at hcounts ⊢
    refine ⟨hcounts.1, fun t ht => ?_⟩
    rcases List.mem_cons.mp ht with rfl | ht
    · exact hcounts.2
    · have hle := hlater t ht
      have hwithin := hcounts.2
      unfold Within at *
      linarith
  exact (bounded_cons within_mono h.bounded hpast hcount).perm (List.perm_append_singleton _ _).symm

theorem windows_step (h : Windows limits s) {e : Event} (hordered : Ordered s e) : Windows limits (step limits s e) := by
  cases e with
  | advance clock => exact ⟨h.table, h.past, h.bounded⟩
  | acquire id provider read =>
    rcases step_acquire limits s id provider read with ⟨-, heq⟩ | ⟨-, hroom, heq⟩ | ⟨-, -, heq⟩
    · rw [heq]
      exact h
    · rw [heq]
      refine ⟨?_, fun x hx => ?_, h.admits hordered hroom⟩
      · have hnew : ∀ t ∈ min read s.clock :: s.reads, Within (min read s.clock) t := by
          intro t ht
          have hle : t ≤ min read s.clock := by
            rcases List.mem_cons.mp ht with rfl | ht
            · exact le_refl _
            · exact hordered t ht
          unfold Within
          linarith
        show (purge (min read s.clock) s.db).requests ++ _ = _
        rw [h.purged, List.filter_append, List.filter_singleton, decide_eq_true hnew]
        rfl
      · rcases List.mem_append.mp hx with hx | hx
        · exact List.mem_cons_of_mem _ (h.past x hx)
        · rw [List.mem_singleton.mp hx]
          exact List.mem_cons_self
    · rw [heq]
      exact ⟨h.purged, fun x hx => List.mem_cons_of_mem _ (h.past x hx), h.bounded⟩
  | renew id read raises =>
    simp only [step]
    split
    · exact h
    · split_ifs
      · exact h
      · exact ⟨h.table, h.past, h.bounded⟩
      · exact ⟨h.table, h.past, h.bounded⟩
  | cancel id => exact ⟨h.table, h.past, h.bounded⟩
  | exit id released =>
    simp only [step]
    split
    · exact h
    · split_ifs
      · exact ⟨h.table, h.past, h.bounded⟩
      · exact ⟨h.table, h.past, h.bounded⟩

theorem bounds_of_inv (hinv : Inv limits s) (h : Windows limits s) : Bounds limits s := by
  refine ⟨fun provider => ?_, fun provider t => ?_⟩
  · refine le_trans (List.countP_mono_left fun r _ hr => ?_) (hinv.rows provider)
    simp only [decide_eq_true_eq] at hr ⊢
    exact hr.1
  · refine le_trans (List.countP_mono_left fun x _ hx => ?_) (h.bounded provider t)
    simp only [decide_eq_true_eq] at hx ⊢
    exact ⟨hx.1, hx.2.2, hx.2.1⟩

theorem leavesNothing (s : State) (e : Event) : LeavesNothing limits s e := by
  cases e with
  | acquire id provider read =>
    intro hrefused
    rcases step_acquire limits s id provider read with ⟨-, heq⟩ | ⟨-, hroom, -⟩ | ⟨-, -, heq⟩
    · rw [heq]
      exact ⟨List.Sublist.refl _, List.Sublist.refl _⟩
    · rw [acquire_admits hroom] at hrefused
      cases hrefused
    · rw [heq]
      exact ⟨purge_leases, purge_requests⟩
  | _ => trivial

/-! ### Every stream -/

/-- The holders have their leases, and a holder whose thread is over was told to end. -/
structure Held (s : State) : Prop where
  rows : ∀ h ∈ s.holders, ¬ (h.cancelled = true ∧ h.lost = true) →
    ∃ r ∈ s.db.leases, r.id = h.id ∧ r.provider = h.provider
  told : ∀ h ∈ s.holders, h.lost = true → h.cancelled = true

theorem held_start {clock : Time} : Held { clock } := ⟨by simp, by simp⟩

theorem mem_renew {r : Lease} (hr : r ∈ db.leases) (hid : r.id = id) (hprovider : r.provider = provider) :
    { r with expires := now + limits.leaseSeconds } ∈ (renew limits provider id now db).leases :=
  mem_updateWhere.mpr ⟨r, hr, if_pos ⟨hid, hprovider⟩⟩

theorem mem_purge {r : Lease} (hr : r ∈ db.leases) (h : now < r.expires) : r ∈ (purge now db).leases :=
  mem_deleteWhere.mpr ⟨hr, not_le.mpr h⟩

theorem held_step (hheld : Held s) {e : Event} (htimely : Timely limits s e) :
    Held (step limits s e) := by
  cases e with
  | advance clock => exact ⟨hheld.rows, hheld.told⟩
  | acquire id provider read =>
    have hkept : ∀ h ∈ s.holders, ¬ (h.cancelled = true ∧ h.lost = true) →
        ∃ r ∈ (purge (min read s.clock) s.db).leases, r.id = h.id ∧ r.provider = h.provider := by
      intro h hh hlive
      obtain ⟨r, hr, hid, hprovider⟩ := hheld.rows h hh hlive
      exact ⟨r, mem_purge hr (htimely h hh hlive r hr hid), hid, hprovider⟩
    rcases step_acquire limits s id provider read with ⟨-, heq⟩ | ⟨-, -, heq⟩ | ⟨-, -, heq⟩
    · rw [heq]
      exact hheld
    · rw [heq]
      refine ⟨fun h hh hlive => ?_, fun h hh hlost => ?_⟩
      · rcases List.mem_append.mp hh with hh | hh
        · obtain ⟨r, hr, hrow⟩ := hkept h hh hlive
          exact ⟨r, List.mem_append_left _ hr, hrow⟩
        · obtain rfl := List.mem_singleton.mp hh
          exact ⟨_, List.mem_append_right _ (List.mem_singleton_self _), rfl, rfl⟩
      · rcases List.mem_append.mp hh with hh | hh
        · exact hheld.told h hh hlost
        · obtain rfl := List.mem_singleton.mp hh
          cases hlost
    · rw [heq]
      exact ⟨hkept, hheld.told⟩
  | renew id read raises =>
    simp only [step]
    split
    · exact hheld
    · split_ifs
      · exact hheld
      · refine ⟨fun h hh hlive => ?_, fun h hh hlost => ?_⟩
        · obtain ⟨h', hh', rfl⟩ := mem_updateWhere.mp hh
          split_ifs at hlive ⊢ with hid
          · exact absurd ⟨rfl, rfl⟩ hlive
          · exact hheld.rows h' hh' hlive
        · obtain ⟨h', hh', rfl⟩ := mem_updateWhere.mp hh
          split_ifs at hlost ⊢
          · rfl
          · exact hheld.told h' hh' hlost
      · refine ⟨fun h hh hlive => ?_, hheld.told⟩
        obtain ⟨r, hr, hid, hprovider⟩ := hheld.rows h hh hlive
        refine ⟨_, mem_updateWhere.mpr ⟨r, hr, rfl⟩, ?_⟩
        split_ifs
        · exact ⟨hid, hprovider⟩
        · exact ⟨hid, hprovider⟩
  | cancel id =>
    refine ⟨fun h hh hlive => ?_, fun h hh hlost => ?_⟩
    · obtain ⟨h', hh', rfl⟩ := mem_updateWhere.mp hh
      split_ifs at hlive ⊢
      · exact hheld.rows h' hh' fun hover => hlive ⟨rfl, hover.2⟩
      · exact hheld.rows h' hh' hlive
    · obtain ⟨h', hh', rfl⟩ := mem_updateWhere.mp hh
      split_ifs at hlost ⊢
      · rfl
      · exact hheld.told h' hh' hlost
  | exit id released =>
    simp only [step]
    split
    · exact hheld
    · refine ⟨fun h hh hlive => ?_, fun h hh hlost => ?_⟩
      · obtain ⟨hh, hne⟩ := mem_deleteWhere.mp hh
        obtain ⟨r, hr, hid, hprovider⟩ := hheld.rows h hh hlive
        split_ifs
        · exact ⟨r, mem_deleteWhere.mpr ⟨hr, fun hdeleted => hne (hid.symm.trans hdeleted.1)⟩, hid, hprovider⟩
        · exact ⟨r, hr, hid, hprovider⟩
      · exact hheld.told h (mem_deleteWhere.mp hh).1 hlost

/-- **A tick** leaves its holder covered. -/
theorem Held.covers (hinv : Inv limits s) (hheld : Held s) {e : Event} (htimely : Timely limits s e) : Covers limits s e := by
  cases e with
  | renew id read raises =>
    intro h hh hid
    simp only [step] at hh ⊢
    split at hh
    · next hnone => exact absurd hid (lookup_eq_none.mp hnone h hh)
    · next h₀ hsome =>
      obtain ⟨hh₀, hid₀⟩ := (lookup_eq_some_iff hinv.holders).mp hsome
      split_ifs at hh ⊢ with hlost hraises
      · obtain rfl := hinv.holders.eq_of_key hh hh₀ (hid.trans hid₀.symm)
        exact Or.inr ⟨hheld.told h hh hlost, hlost⟩
      · obtain ⟨h', -, rfl⟩ := mem_updateWhere.mp hh
        split_ifs at hid ⊢ with hself
        · exact Or.inr ⟨rfl, rfl⟩
        · exact absurd hid hself
      · obtain rfl := hinv.holders.eq_of_key hh hh₀ (hid.trans hid₀.symm)
        obtain ⟨r, hr, hrow, hprovider⟩ := hheld.rows h hh fun hover => hlost hover.2
        exact Or.inl ⟨_, mem_renew hr (hrow.trans hid) hprovider, hrow, hprovider, htimely⟩
  | _ => trivial

theorem Held.streams_le (hinv : Inv limits s) (hheld : Held s) (provider : String) : streams provider s ≤ limits.concurrent := by
  have hsubset : ((s.holders.filter fun h => h.provider = provider ∧ h.cancelled = false).map Holder.id) ⊆
      ((s.db.leases.filter fun r => r.provider = provider).map Lease.id) := by
    intro id hid
    obtain ⟨h, hh, rfl⟩ := List.mem_map.mp hid
    obtain ⟨hmem, hopen⟩ := List.mem_filter.mp hh
    obtain ⟨hprovider, hlive⟩ := of_decide_eq_true hopen
    obtain ⟨r, hr, hrow, hsame⟩ := hheld.rows h hmem fun hover => by rw [hlive] at hover; cases hover.1
    exact List.mem_map.mpr ⟨r, List.mem_filter.mpr ⟨hr, decide_eq_true (hsame.trans hprovider)⟩, hrow⟩
  have hnodup : ((s.holders.filter fun h => h.provider = provider ∧ h.cancelled = false).map Holder.id).Nodup :=
    hinv.holders.sublist (List.filter_sublist.map _)
  have hle := (hnodup.subperm hsubset).length_le
  rw [List.length_map, List.length_map, ← List.countP_eq_length_filter, ← List.countP_eq_length_filter] at hle
  exact hle.trans (hinv.rows provider)

end Proofs

/-- **The limits hold** in every run whose passes begin in the order in which they read the clock. -/
theorem admission_bounds (limits : Limits) (clock : Time) {events : List Event}
    (h : Along (step limits) Ordered { clock } events) :
    (∀ pre, pre <+: events → Bounds limits (run (step limits) { clock } pre) ∧ Charged (run (step limits) { clock } pre)) ∧
      Along (step limits) (LeavesNothing limits) { clock } events := by
  refine ⟨?_, along_of_inv (I := fun _ => True) (fun _ _ _ _ => trivial) (fun s e _ _ => leavesNothing s e) trivial h⟩
  rintro pre ⟨post, rfl⟩
  have hpre : Along (step limits) Ordered { clock } pre := (along_append.mp h).1
  have hboth := inv_run (I := fun s => Inv limits s ∧ Windows limits s)
    (fun s e hinv hordered => ⟨inv_step hinv.1 e, windows_step hinv.2 hordered⟩) ⟨inv_start, windows_start⟩ hpre
  exact ⟨bounds_of_inv hboth.1 hboth.2, hboth.1.leases, hboth.1.requests⟩

/-- **No stream outlives its lease** in a run in which none is so late that another pass finds the lease expired. -/
theorem leases_outlast_streams (limits : Limits) (clock : Time) {events : List Event}
    (h : Along (step limits) (Timely limits) { clock } events) :
    Along (step limits) (Covers limits) { clock } events ∧
      ∀ pre, pre <+: events → ∀ provider, streams provider (run (step limits) { clock } pre) ≤ limits.concurrent := by
  have hstep : ∀ s e, Inv limits s ∧ Held s → Timely limits s e → Inv limits (step limits s e) ∧ Held (step limits s e) :=
    fun s e hinv htimely => ⟨inv_step hinv.1 e, held_step hinv.2 htimely⟩
  refine ⟨along_of_inv hstep (fun s e hinv htimely => hinv.2.covers hinv.1 htimely) ⟨inv_start, held_start⟩ h, ?_⟩
  rintro pre ⟨post, rfl⟩ provider
  have hboth := inv_run hstep ⟨inv_start, held_start⟩ (along_append.mp h).1
  exact hboth.2.streams_le hboth.1 provider

def usual : Limits := ⟨2, 60, 600, by norm_num⟩

def narrow : Limits := ⟨1, 1, 600, by norm_num⟩

theorem admission_bounds_two : (∀ pre, pre <+: [.acquire 0 "p" 0, .advance 61, .acquire 1 "p" 61] →
    Bounds usual (run (step usual) { clock := 0 } pre) ∧ Charged (run (step usual) { clock := 0 } pre)) ∧
      Along (step usual) (LeavesNothing usual) { clock := 0 } [.acquire 0 "p" 0, .advance 61, .acquire 1 "p" 61] :=
  admission_bounds usual 0 (by decide)

/-- A pass of another account deletes the row of the first request, and the last pass is still in the minute of it. -/
theorem not_admission_bounds : ¬ ∀ (limits : Limits) (clock : Time) (events : List Event),
    (∀ pre, pre <+: events → Bounds limits (run (step limits) { clock } pre) ∧ Charged (run (step limits) { clock } pre)) ∧
      Along (step limits) (LeavesNothing limits) { clock } events := by
  intro h
  have hcount := ((h { narrow with concurrent := 3, valid := by norm_num [narrow] } 0
    [.acquire 0 "p" 0, .advance 61, .acquire 1 "q" 61, .acquire 2 "p" 0]).1 _ (List.prefix_refl _)).1.requests "p" 0
  revert hcount
  decide_cbv

theorem leases_outlast_streams_renewed : Along (step narrow) (Covers narrow) { clock := 0 }
    [.acquire 0 "p" 0, .advance 10, .renew 0 10 false] ∧ ∀ pre, pre <+: [.acquire 0 "p" 0, .advance 10, .renew 0 10 false] →
      ∀ provider, streams provider (run (step narrow) { clock := 0 } pre) ≤ narrow.concurrent :=
  leases_outlast_streams narrow 0 (by decide_cbv)

/-- A process is suspended past the end of its lease, and another one is admitted: the renewal finds no row, and says nothing. -/
theorem not_leases_outlast_streams : ¬ ∀ (limits : Limits) (clock : Time) (events : List Event),
    Along (step limits) (Covers limits) { clock } events ∧
      ∀ pre, pre <+: events → ∀ provider, streams provider (run (step limits) { clock } pre) ≤ limits.concurrent := by
  intro h
  have hcount := (h narrow 0 [.acquire 0 "p" 0, .advance 601, .acquire 1 "p" 601, .renew 0 601 false]).2 _ (List.prefix_refl _) "p"
  revert hcount
  decide_cbv

end Smara.Native.Admission
