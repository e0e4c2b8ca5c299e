import Mathlib.Algebra.Order.BigOperators.Group.List
import Mathlib.Algebra.Order.Group.Nat
import Smara.Provider.Limits

/-! # The limits hold over whole turns

A request goes past the counts if it shows no research and its group is not known, or neither its window nor
its group has research. `Covered` says that a window that has research, or has had its last request, does
not go past them.

* `admitRequest_outcome`: all that can come of a request.
* `calls_counted_once`: every call is counted once, however often it is shown.
* `limits_hold`: if every request is `Covered`, all limits hold. -/

namespace Smara.Provider.Budgets

open Lib.Machine Lib.Table
open Provider.Limits

/-! ### Tables -/

section Tables
variable {κ ω α : Type} [DecidableEq κ] {k k' : κ} {w : ω} {t : List (κ × ω)}

theorem find_store : find k' (store k w t) = if k' = k then some w else find k' t := by
  unfold find store
  rw [lookup_upsert fun _ _ => rfl]
  by_cases h : k' = k
  · rw [if_pos h, if_pos h]
    cases lookup Prod.fst k' t <;> rfl
  · rw [if_neg h, if_neg h]

theorem find_of_ne (h : k' ≠ k) : find k' (store k w t) = find k' t := by
  rw [find_store, if_neg h]

theorem find_store_self : find k (store k w t) = some w := by
  rw [find_store, if_pos rfl]

def opened (k : κ) (now : ℤ) (t : List (κ × Window α)) : Window α := (find k t).getD { started := now }

/-- **A window that is there for a key**: it is the old one, or a new one. -/
theorem window_eq_some {now : ℤ} {t t' : List (κ × Window α)} {w : Window α}
    (h : window k now t = some (t', w)) :
    w = opened k now t ∧ ∀ w' k', find k' (store k w' t') = if k' = k then some w' else find k' t := by
  unfold window at h
  unfold opened
  cases hf : find k t with
  | some w₀ =>
    rw [hf] at h
    obtain ⟨rfl, rfl⟩ := Prod.mk.inj (Option.some.inj h)
    exact ⟨rfl, fun w' k' => find_store⟩
  | none =>
    rw [hf] at h
    simp only at h
    split_ifs at h
    obtain ⟨rfl, rfl⟩ := Prod.mk.inj (Option.some.inj h)
    refine ⟨rfl, fun w' k' => ?_⟩
    rw [find_store]
    by_cases hk : k' = k
    · rw [if_pos hk, if_pos hk]
    · rw [if_neg hk, if_neg hk, find_of_ne hk]

theorem find_window {now : ℤ} {t t' : List (κ × Window α)} {w : Window α}
    (h : window k now t = some (t', w)) (k' : κ) :
    find k' t' = find k' t ∨ k' = k ∧ find k' t = none ∧ find k' t' = some { started := now } := by
  unfold window at h
  cases hf : find k t with
  | some w₀ =>
    rw [hf] at h
    obtain ⟨rfl, rfl⟩ := Prod.mk.inj (Option.some.inj h)
    exact Or.inl rfl
  | none =>
    rw [hf] at h
    simp only at h
    split_ifs at h
    obtain ⟨rfl, rfl⟩ := Prod.mk.inj (Option.some.inj h)
    by_cases hk : k' = k
    · subst hk
      exact Or.inr ⟨rfl, hf, find_store_self⟩
    · exact Or.inl (find_of_ne hk)

end Tables

/-! ### What can come of a request -/

section Outcome
variable (limits : Limits) (host : Host) (s : State) (c : Call)

def before : Counts :=
  (opened (c.request.key host) c.now s.windows, opened (c.request.group host) c.now s.groups)

def charged : Counts := charge host c.request (before host s c)

structure Stored (w : Window String) (g : Window (String × String)) (s' : State) : Prop where
  windows : ∀ k, find k s'.windows = if k = c.request.key host then some w else find k s.windows
  groups : ∀ k, find k s'.groups = if k = c.request.group host then some g else find k s.groups

/-- **All that can come of a request.** -/
inductive Outcome : Verdict × State → Prop
  | aside (hcalls : c.request.researchCalls = []) (hgroup : find (c.request.group host) s.groups = none) :
    Outcome (.intact, s)
  | full {windows : List (Key × Window String)} (hwindows : ∀ k, find k windows = find k s.windows ∨
      find k s.windows = none ∧ find k windows = some { started := c.now }) :
    Outcome (full, { s with windows := windows })
  | quiet {s' : State} (hnone : (charged host s c).1.research = false ∧ (charged host s c).2.research = false)
    (hstored : Stored host s c (charged host s c).1 (charged host s c).2 s') : Outcome (.intact, s')
  | decided {s' : State} {v : Verdict} {w : Window String}
    (hsome : ¬ ((charged host s c).1.research = false ∧ (charged host s c).2.research = false))
    (hdecided : decided limits c.now ((charged host s c).1.request, (charged host s c).2.request) = (v, w))
    (hstored : Stored host s c w (charged host s c).2.request s') : Outcome (v, s')

theorem admitRequest_outcome : Outcome limits host s c (admitRequest limits host s c) := by
  unfold admitRequest
  simp only
  split_ifs with haside
  · exact .aside haside.1 haside.2
  cases hw : window (c.request.key host) c.now s.windows with
  | none => exact .full fun k => Or.inl rfl
  | some r =>
    obtain ⟨windows, w⟩ := r
    obtain ⟨rfl, hwindows⟩ := window_eq_some hw
    cases hg : window (c.request.group host) c.now s.groups with
    | none =>
      refine .full fun k => ?_
      exact (find_window hw k).imp_right fun h => h.2
    | some r =>
      obtain ⟨groups, g⟩ := r
      obtain ⟨rfl, hgroups⟩ := window_eq_some hg
      change Outcome limits host s c (if (charged host s c).1.research = false ∧
        (charged host s c).2.research = false then _ else _)
      split_ifs with hnone
      · exact .quiet hnone ⟨hwindows _, hgroups _⟩
      · exact .decided hnone rfl ⟨hwindows _, hgroups _⟩

end Outcome

/-! ### Counting -/

/-- A window has each call once, with one fingerprint, and none before it has research. -/
structure WindowOk (w : Window String) : Prop where
  nodup : w.calls.Nodup
  keyed : Keyed Prod.fst w.repeats
  total : (w.repeats.map Prod.snd).sum = w.calls.length
  idle : w.research = false → w.calls = []

/-- A group has each call once, and none before it has research. -/
structure GroupOk (g : Window (String × String)) : Prop where
  nodup : g.calls.Nodup
  idle : g.research = false → g.calls = []

theorem insertNew_nodup {α : Type} [DecidableEq α] {a : α} {as : List α} (h : as.Nodup) :
    (insertNew a as).Nodup := by
  unfold insertNew
  split_ifs with ha
  · exact h
  · rw [List.nodup_append]
    refine ⟨h, List.nodup_singleton a, fun b hb b' hb' heq => ha ?_⟩
    rw [← List.mem_singleton.mp hb', ← heq]
    exact hb

theorem mem_insertNew {α : Type} [DecidableEq α] {a b : α} {as : List α} :
    b ∈ insertNew a as ↔ b ∈ as ∨ b = a := by
  unfold insertNew
  split_ifs with ha
  · constructor
    · exact Or.inl
    · rintro (h | rfl)
      · exact h
      · exact ha
  · simp

theorem keyed_bump {f : String} {repeats : List (String × ℕ)} (h : Keyed Prod.fst repeats) :
    Keyed Prod.fst (bump f repeats) := h.upsert fun _ _ => rfl

theorem sum_bump {f : String} {repeats : List (String × ℕ)} (h : Keyed Prod.fst repeats) :
    ((bump f repeats).map Prod.snd).sum = (repeats.map Prod.snd).sum + 1 := by
  unfold bump store find
  cases hf : lookup Prod.fst f repeats with
  | none => exact sum_map_upsert_new hf
  | some r =>
    have hsum := sum_map_upsert_old (r := (f, r.2 + 1)) (f := fun _ => (f, r.2 + 1)) (w := Prod.snd) h hf
    simp only [Option.map_some, Option.getD_some]
    omega

variable {host : Host} {thread : String} {c : Counts} {item : Item} {items : List Item}

theorem windowOk_count (h : WindowOk c.1) : WindowOk (count host thread c item).1 := by
  unfold count
  split_ifs with hmem
  · exact h
  · refine ⟨insertNew_nodup h.nodup, keyed_bump h.keyed, ?_, nofun⟩
    simp only
    rw [sum_bump h.keyed, h.total]
    unfold insertNew
    rw [if_neg hmem, List.length_append, List.length_singleton]

theorem groupOk_count (h : GroupOk c.2) : GroupOk (count host thread c item).2 := by
  unfold count
  split_ifs with hmem
  · exact h
  · exact ⟨insertNew_nodup h.nodup, nofun⟩

/-- What counting leaves alone. -/
structure Kept (c c' : Counts) : Prop where
  requests : c'.1.requests = c.1.requests ∧ c'.2.requests = c.2.requests
  synthesis : c'.1.synthesis = c.1.synthesis
  research : (c.1.research → c'.1.research) ∧ (c.2.research → c'.2.research)
  calls : ∀ id ∈ c.1.calls, id ∈ c'.1.calls

theorem kept_count : Kept c (count host thread c item) := by
  unfold count
  split_ifs with hmem
  · exact ⟨⟨rfl, rfl⟩, rfl, ⟨id, id⟩, fun _ => id⟩
  · exact ⟨⟨rfl, rfl⟩, rfl, ⟨fun _ => rfl, fun _ => rfl⟩, fun id hid => mem_insertNew.mpr (Or.inl hid)⟩

/-- The loop of `admit`. -/
def countAll (host : Host) (thread : String) (items : List Item) (c : Counts) : Counts :=
  items.foldl (count host thread) c

theorem windowOk_countAll (h : WindowOk c.1) : WindowOk (countAll host thread items c).1 := by
  induction items generalizing c with
  | nil => exact h
  | cons item items ih => exact ih (windowOk_count h)

theorem groupOk_countAll (h : GroupOk c.2) : GroupOk (countAll host thread items c).2 := by
  induction items generalizing c with
  | nil => exact h
  | cons item items ih => exact ih (groupOk_count h)

theorem kept_countAll : Kept c (countAll host thread items c) := by
  induction items generalizing c with
  | nil => exact ⟨⟨rfl, rfl⟩, rfl, ⟨id, id⟩, fun _ => id⟩
  | cons item items ih =>
    have h₁ : Kept c (count host thread c item) := kept_count
    have h₂ := ih (c := count host thread c item)
    exact ⟨⟨h₂.requests.1.trans h₁.requests.1, h₂.requests.2.trans h₁.requests.2⟩,
      h₂.synthesis.trans h₁.synthesis, ⟨fun h => h₂.research.1 (h₁.research.1 h),
        fun h => h₂.research.2 (h₁.research.2 h)⟩, fun id hid => h₂.calls id (h₁.calls id hid)⟩

/-- **Every call that a request shows is counted**, and no other. -/
theorem mem_countAll {id : String} : id ∈ (countAll host thread items c).1.calls ↔
    id ∈ c.1.calls ∨ ∃ item ∈ items, item.callId = id := by
  induction items generalizing c with
  | nil => simp [countAll]
  | cons item items ih =>
    have hone : id ∈ (count host thread c item).1.calls ↔ id ∈ c.1.calls ∨ item.callId = id := by
      unfold count
      split_ifs with hmem
      · constructor
        · exact Or.inl
        · rintro (h | rfl)
          · exact h
          · exact hmem
      · rw [mem_insertNew, eq_comm]
    change id ∈ (countAll host thread items (count host thread c item)).1.calls ↔ _
    rw [ih, hone, List.exists_mem_cons_iff, or_assoc]

theorem countAll_of_idle (h : (countAll host thread items c).1.research = false) :
    countAll host thread items c = c := by
  induction items generalizing c with
  | nil => rfl
  | cons item items ih =>
    have hrest : countAll host thread items (count host thread c item) = count host thread c item := ih h
    change countAll host thread items (count host thread c item) = c
    change (countAll host thread items (count host thread c item)).1.research = false at h
    rw [hrest] at h ⊢
    unfold count at h ⊢
    split_ifs with hmem
    · rfl
    · rw [if_neg hmem] at h
      cases h

/-! ### Every call is counted once -/

/-- What the tables always are. -/
structure Good (s : State) : Prop where
  windows : ∀ k w, find k s.windows = some w → WindowOk w
  groups : ∀ k g, find k s.groups = some g → GroupOk g

section Step
variable {limits : Limits} {s : State} {r : Call}

theorem windowOk_new {now : ℤ} : WindowOk { started := now } :=
  ⟨List.nodup_nil, List.nodup_nil, rfl, fun _ => rfl⟩

theorem groupOk_new {now : ℤ} : GroupOk { started := now } := ⟨List.nodup_nil, fun _ => rfl⟩

theorem windowOk_before (h : Good s) : WindowOk (before host s r).1 := by
  unfold before opened
  cases hf : find (r.request.key host) s.windows with
  | none => exact windowOk_new
  | some w => exact h.windows _ w hf

theorem groupOk_before (h : Good s) : GroupOk (before host s r).2 := by
  unfold before opened
  cases hf : find (r.request.group host) s.groups with
  | none => exact groupOk_new
  | some g => exact h.groups _ g hf

theorem windowOk_charged (h : Good s) : WindowOk (charged host s r).1 :=
  windowOk_countAll (windowOk_before h)

theorem groupOk_charged (h : Good s) : GroupOk (charged host s r).2 := groupOk_countAll (groupOk_before h)

theorem decided_window {now : ℤ} {v : Verdict} {w : Window String} (h : decided limits now c = (v, w)) :
    w.calls = c.1.calls ∧ w.repeats = c.1.repeats ∧ w.requests = c.1.requests ∧
      w.research = c.1.research ∧ (c.1.synthesis → w.synthesis) := by
  unfold decided at h
  cases hr : reason limits now c with
  | none =>
    rw [hr] at h
    simp only at h
    split_ifs at h
    · obtain ⟨-, rfl⟩ := Prod.mk.inj h
      exact ⟨rfl, rfl, rfl, rfl, id⟩
    · obtain ⟨-, rfl⟩ := Prod.mk.inj h
      exact ⟨rfl, rfl, rfl, rfl, id⟩
  | some why =>
    rw [hr] at h
    simp only at h
    split_ifs at h
    · obtain ⟨-, rfl⟩ := Prod.mk.inj h
      exact ⟨rfl, rfl, rfl, rfl, id⟩
    · obtain ⟨-, rfl⟩ := Prod.mk.inj h
      exact ⟨rfl, rfl, rfl, rfl, fun _ => rfl⟩

theorem good_stored {w : Window String} {g : Window (String × String)} {s' : State} (h : Good s)
    (hstored : Stored host s r w g s') (hw : WindowOk w) (hg : GroupOk g) : Good s' := by
  refine ⟨fun k w' hk => ?_, fun k g' hk => ?_⟩
  · rw [hstored.windows] at hk
    split_ifs at hk
    · exact Option.some.inj hk ▸ hw
    · exact h.windows k w' hk
  · rw [hstored.groups] at hk
    split_ifs at hk
    · exact Option.some.inj hk ▸ hg
    · exact h.groups k g' hk

theorem good_step (h : Good s) : Good (step limits host s r) := by
  have hcases := admitRequest_outcome limits host s r
  unfold step
  generalize admitRequest limits host s r = o at hcases
  cases hcases with
  | aside => exact h
  | full hwindows =>
    refine ⟨fun k w hk => ?_, h.groups⟩
    rcases hwindows k with hsame | ⟨-, hnew⟩
    · exact h.windows k w (hsame ▸ hk)
    · rw [← Option.some.inj (hnew.symm.trans hk)]
      exact windowOk_new
  | quiet hnone hstored => exact good_stored h hstored (windowOk_charged h) (groupOk_charged h)
  | decided hsome hdecided hstored =>
    obtain ⟨hcalls, hrepeats, -, hresearch, -⟩ := decided_window hdecided
    have hw : WindowOk (charged host s r).1 := windowOk_charged h
    have hg : GroupOk (charged host s r).2 := groupOk_charged h
    refine good_stored h hstored ⟨?_, ?_, ?_, ?_⟩ ⟨hg.nodup, hg.idle⟩
    · rw [hcalls]
      exact hw.nodup
    · rw [hrepeats]
      exact hw.keyed
    · rw [hcalls, hrepeats]
      exact hw.total
    · rw [hcalls, hresearch]
      exact hw.idle

/-- The calls of a window are those that its requests have shown. -/
def Shown (host : Host) (rs : List Call) (s : State) : Prop :=
  ∀ k w, find k s.windows = some w → ∀ id ∈ w.calls,
    ∃ r ∈ rs, r.request.key host = k ∧ ∃ item ∈ r.request.researchCalls, item.callId = id

theorem shown_stored {rs : List Call} {w : Window String} {g : Window (String × String)} {s' : State}
    (h : Shown host rs s) (hstored : Stored host s r w g s') (hw : w.calls = (charged host s r).1.calls) :
    Shown host (rs ++ [r]) s' := by
  intro k w' hk id hid
  have hold : ∀ k w, find k s.windows = some w → id ∈ w.calls → ∃ r' ∈ rs ++ [r], r'.request.key host = k ∧
      ∃ item ∈ r'.request.researchCalls, item.callId = id := by
    intro k w hk hid
    obtain ⟨r', hr', hkey, hitem⟩ := h k w hk id hid
    exact ⟨r', List.mem_append_left _ hr', hkey, hitem⟩
  rw [hstored.windows] at hk
  split_ifs at hk with hkey
  · obtain rfl := Option.some.inj hk
    rw [hw] at hid
    rcases mem_countAll.mp hid with hid | hitem
    · unfold before opened at hid
      cases hf : find (r.request.key host) s.windows with
      | none =>
        rw [hf] at hid
        exact absurd hid List.not_mem_nil
      | some w₀ =>
        rw [hf] at hid
        exact hkey ▸ hold _ w₀ hf hid
    · exact ⟨r, List.mem_append_right _ (List.mem_singleton_self r), hkey.symm, hitem⟩
  · exact hold k w' hk hid

theorem shown_step {rs : List Call} (h : Shown host rs s) : Shown host (rs ++ [r]) (step limits host s r) := by
  have hcases := admitRequest_outcome limits host s r
  unfold step
  generalize admitRequest limits host s r = o at hcases
  have hold : ∀ k w, find k s.windows = some w → ∀ id ∈ w.calls, ∃ r' ∈ rs ++ [r], r'.request.key host = k ∧
      ∃ item ∈ r'.request.researchCalls, item.callId = id := by
    intro k w hk id hid
    obtain ⟨r', hr', hkey, hitem⟩ := h k w hk id hid
    exact ⟨r', List.mem_append_left _ hr', hkey, hitem⟩
  cases hcases with
  | aside => exact hold
  | full hwindows =>
    intro k w hk
    rcases hwindows k with hsame | ⟨-, hnew⟩
    · exact hold k w (hsame ▸ hk)
    · rw [← Option.some.inj (hnew.symm.trans hk)]
      exact fun id hid => absurd hid List.not_mem_nil
  | quiet hnone hstored => exact shown_stored h hstored rfl
  | decided hsome hdecided hstored => exact shown_stored h hstored (decided_window hdecided).1

def Counted (limits : Limits) (host : Host) (s : State) (r : Call) : Prop :=
  (admitRequest limits host s r).1 = full ∨ ∀ item ∈ r.request.researchCalls,
    ∃ w, find (r.request.key host) (step limits host s r).windows = some w ∧ item.callId ∈ w.calls

theorem counted_step : Counted limits host s r := by
  have hcases := admitRequest_outcome limits host s r
  unfold Counted step
  generalize admitRequest limits host s r = o at hcases
  have hshown : ∀ item ∈ r.request.researchCalls, item.callId ∈ (charged host s r).1.calls :=
    fun item hitem => mem_countAll.mpr (Or.inr ⟨item, hitem, rfl⟩)
  cases hcases with
  | aside hcalls =>
    refine Or.inr fun item hitem => ?_
    rw [hcalls] at hitem
    exact absurd hitem List.not_mem_nil
  | full => exact Or.inl rfl
  | quiet hnone hstored =>
    refine Or.inr fun item hitem => ⟨_, ?_, hshown item hitem⟩
    rw [hstored.windows, if_pos rfl]
  | decided hsome hdecided hstored =>
    refine Or.inr fun item hitem => ⟨_, ?_, (decided_window hdecided).1 ▸ hshown item hitem⟩
    rw [hstored.windows, if_pos rfl]

end Step

/-! ### The limits -/

/-- **A request that shows no research** does not go past the counts of its window: if the window has
research, the group is known, and if the window has had its last request, the window or the group has
research. -/
def Covered (host : Host) (s : State) (r : Call) : Prop :=
  r.request.researchCalls = [] →
    (find (r.request.group host) s.groups = none → (before host s r).1.research = false) ∧
      ((before host s r).1.synthesis → (before host s r).1.research ∨ (before host s r).2.research)

instance (host : Host) (s : State) (r : Call) : Decidable (Covered host s r) :=
  inferInstanceAs (Decidable (_ → _))

/-- Research has started for the window of the request, or for its group. -/
def Researching (host : Host) (s : State) (r : Call) : Prop :=
  (find (r.request.key host) s.windows).any Window.research ∨
    (find (r.request.group host) s.groups).any Window.research

instance (host : Host) (s : State) (r : Call) : Decidable (Researching host s r) :=
  inferInstanceAs (Decidable (_ ∨ _))

def Toolful (limits : Limits) (host : Host) (s : State) (r : Call) : Prop :=
  (admitRequest limits host s r).1 = .intact ∧ Researching host (step limits host s r) r

instance (limits : Limits) (host : Host) (s : State) (r : Call) : Decidable (Toolful limits host s r) :=
  inferInstanceAs (Decidable (_ ∧ _))

def Spent (k : Key) (s : State) : Prop := (find k s.windows).any Window.synthesis

section Limits
variable {limits : Limits} {s : State} {r : Call}

theorem le_most {f : String} {n : ℕ} {repeats : List (String × ℕ)} (h : find f repeats = some n) :
    n ≤ most repeats := by
  have hmem : n ∈ repeats.map Prod.snd := by
    unfold find at h
    obtain ⟨p, hp, rfl⟩ := Option.map_eq_some_iff.mp h
    exact List.mem_map_of_mem (mem_of_lookup hp)
  have hmax : ∀ (ns : List ℕ) (m : ℕ), m ≤ ns.foldl max m ∧ ∀ n ∈ ns, n ≤ ns.foldl max m := by
    intro ns
    induction ns with
    | nil => exact fun m => ⟨le_rfl, fun n hn => absurd hn List.not_mem_nil⟩
    | cons a ns ih =>
      intro m
      obtain ⟨hstart, hall⟩ := ih (max m a)
      rw [List.foldl_cons]
      refine ⟨(le_max_left m a).trans hstart, fun n hn => ?_⟩
      rcases List.mem_cons.mp hn with rfl | hn
      · exact (le_max_right m n).trans hstart
      · exact hall n hn
  exact (hmax _ 0).2 n hmem

theorem reason_eq_none {now : ℤ} (h : reason limits now c = none) :
    most c.1.repeats < limits.repeatLimit ∧ c.1.calls.length < limits.workerCalls ∧
      c.2.calls.length < limits.sharedCalls ∧ c.1.requests < limits.workerRequests ∧
      c.2.requests < limits.sharedRequests := by
  unfold reason at h
  split_ifs at h with hrepeats hcalls htime hrequests
  push Not at hrepeats hcalls hrequests
  exact ⟨hrepeats, hcalls.1, hcalls.2, hrequests.1, hrequests.2⟩

theorem decided_intact {now : ℤ} {w : Window String} (h : decided limits now c = (.intact, w)) :
    reason limits now c = none ∧ w = c.1 := by
  unfold decided at h
  cases hr : reason limits now c with
  | none =>
    rw [hr] at h
    simp only at h
    split_ifs at h
    · cases h
    · exact ⟨rfl, (Prod.mk.inj h).2.symm⟩
  | some why =>
    rw [hr] at h
    simp only at h
    split_ifs at h <;> cases h

theorem decided_of_spent {now : ℤ} {v : Verdict} {w : Window String} (hspent : c.1.synthesis = true)
    (h : decided limits now c = (v, w)) : ∃ message, v = .refused message := by
  unfold decided at h
  rw [if_pos hspent] at h
  cases hr : reason limits now c with
  | none =>
    rw [hr] at h
    exact ⟨_, (Prod.mk.inj h).1.symm⟩
  | some why =>
    rw [hr] at h
    simp only [hspent, if_true] at h
    exact ⟨_, (Prod.mk.inj h).1.symm⟩

theorem decided_synthesis {now : ℤ} {why : String} {w : Window String}
    (h : decided limits now c = (.synthesis why, w)) : w.synthesis = true := by
  unfold decided at h
  cases hr : reason limits now c with
  | none =>
    rw [hr] at h
    simp only at h
    split_ifs at h
    · cases h
    · cases h
  | some why =>
    rw [hr] at h
    simp only at h
    split_ifs at h
    · cases h
    · rw [← (Prod.mk.inj h).2]

theorem charged_of_idle (h : Good s) (hidle : (charged host s r).1.research = false) :
    r.request.researchCalls = [] ∧ charged host s r = before host s r := by
  refine ⟨List.eq_nil_iff_forall_not_mem.mpr fun item hitem => ?_, countAll_of_idle hidle⟩
  have hwindow : WindowOk (charged host s r).1 := windowOk_charged h
  have hcalls := hwindow.idle hidle
  have hmem : item.callId ∈ (charged host s r).1.calls := mem_countAll.mpr (Or.inr ⟨item, hitem, rfl⟩)
  rw [hcalls] at hmem
  exact absurd hmem List.not_mem_nil

/-- **A request with tools after research has started** was counted, and no limit was reached. -/
theorem counted_of_toolful (hcovered : Covered host s r) (h : Toolful limits host s r) :
    reason limits r.now ((charged host s r).1.request, (charged host s r).2.request) = none ∧
      Stored host s r (charged host s r).1.request (charged host s r).2.request (step limits host s r) := by
  obtain ⟨hintact, hresearching⟩ := h
  have hcases := admitRequest_outcome limits host s r
  unfold step at hresearching ⊢
  generalize admitRequest limits host s r = o at hcases hintact hresearching
  cases hcases with
  | aside hcalls hgroup =>
    have hidle := (hcovered hcalls).1 hgroup
    unfold Researching at hresearching
    simp only [hgroup, Option.any_none, Bool.false_eq_true, or_false] at hresearching
    unfold before opened at hidle
    cases hf : find (r.request.key host) s.windows with
    | none =>
      rw [hf] at hresearching
      cases hresearching
    | some w =>
      rw [hf] at hresearching hidle
      exact absurd (hidle.symm.trans hresearching) (by decide)
  | full => cases hintact
  | quiet hnone hstored =>
    unfold Researching at hresearching
    rw [hstored.windows, hstored.groups, if_pos rfl, if_pos rfl] at hresearching
    simp only [Option.any_some, hnone, Bool.false_eq_true, or_self] at hresearching
  | decided hsome hdecided hstored =>
    obtain rfl : _ = Verdict.intact := hintact
    obtain ⟨hreason, rfl⟩ := decided_intact hdecided
    exact ⟨hreason, hstored⟩

def requests {κ α : Type} [DecidableEq κ] (k : κ) (t : List (κ × Window α)) : ℕ :=
  ((find k t).map Window.requests).getD 0

theorem requests_opened {κ α : Type} [DecidableEq κ] {k : κ} {now : ℤ} {t : List (κ × Window α)} :
    (opened k now t).requests = requests k t := by
  unfold opened requests
  cases find k t <;> rfl

variable (host) in
theorem requests_charged : (charged host s r).1.requests = requests (r.request.key host) s.windows ∧
    (charged host s r).2.requests = requests (r.request.group host) s.groups := by
  have hkept : Kept (before host s r) (charged host s r) := kept_countAll
  exact ⟨hkept.requests.1.trans requests_opened, hkept.requests.2.trans requests_opened⟩

theorem requests_stored {w : Window String} {g : Window (String × String)} {s' : State}
    (hstored : Stored host s r w g s')
    (hw : requests (r.request.key host) s.windows ≤ w.requests)
    (hg : requests (r.request.group host) s.groups ≤ g.requests) :
    (∀ k, requests k s.windows ≤ requests k s'.windows) ∧
      ∀ k, requests k s.groups ≤ requests k s'.groups := by
  refine ⟨fun k => ?_, fun k => ?_⟩
  · rw [requests.eq_def k s'.windows, hstored.windows]
    split_ifs with hk
    · exact hk ▸ hw
    · exact le_rfl
  · rw [requests.eq_def k s'.groups, hstored.groups]
    split_ifs with hk
    · exact hk ▸ hg
    · exact le_rfl

theorem requests_step : (∀ k, requests k s.windows ≤ requests k (step limits host s r).windows) ∧
    ∀ k, requests k s.groups ≤ requests k (step limits host s r).groups := by
  have hcases := admitRequest_outcome limits host s r
  unfold step
  generalize admitRequest limits host s r = o at hcases
  obtain ⟨hw, hg⟩ := requests_charged host (s := s) (r := r)
  cases hcases with
  | aside => exact ⟨fun _ => le_rfl, fun _ => le_rfl⟩
  | full hwindows =>
    refine ⟨fun k => ?_, fun _ => le_rfl⟩
    unfold requests
    rcases hwindows k with hsame | ⟨hnone, -⟩
    · rw [hsame]
    · rw [hnone]
      exact Nat.zero_le _
  | quiet hnone hstored => exact requests_stored hstored hw.ge hg.ge
  | decided hsome hdecided hstored =>
    have hrequests := (decided_window hdecided).2.2.1
    refine requests_stored hstored ?_ ?_
    · rw [hrequests, ← hw]
      exact Nat.le_succ _
    · rw [← hg]
      exact Nat.le_succ _

theorem requests_of_toolful (hcovered : Covered host s r) (h : Toolful limits host s r) :
    (requests (r.request.key host) (step limits host s r).windows =
        requests (r.request.key host) s.windows + 1 ∧
      requests (r.request.key host) (step limits host s r).windows < limits.workerRequests) ∧
      requests (r.request.group host) (step limits host s r).groups =
        requests (r.request.group host) s.groups + 1 ∧
      requests (r.request.group host) (step limits host s r).groups < limits.sharedRequests := by
  obtain ⟨hreason, hstored⟩ := counted_of_toolful hcovered h
  obtain ⟨-, -, -, hworker, hshared⟩ := reason_eq_none hreason
  obtain ⟨hw, hg⟩ := requests_charged host (s := s) (r := r)
  have hwindow : requests (r.request.key host) (step limits host s r).windows =
      (charged host s r).1.requests + 1 := by
    rw [requests.eq_def, hstored.windows, if_pos rfl]
    rfl
  have hgroup : requests (r.request.group host) (step limits host s r).groups =
      (charged host s r).2.requests + 1 := by
    rw [requests.eq_def, hstored.groups, if_pos rfl]
    rfl
  rw [hwindow, hgroup, ← hw, ← hg]
  exact ⟨⟨rfl, hworker⟩, rfl, hshared⟩

theorem spent_step {k : Key} (h : Spent k s) : Spent k (step limits host s r) := by
  have hcases := admitRequest_outcome limits host s r
  unfold Spent step at *
  generalize admitRequest limits host s r = o at hcases
  have hcharged : k = r.request.key host → (charged host s r).1.synthesis = true := by
    rintro rfl
    have hkept : Kept (before host s r) (charged host s r) := kept_countAll
    refine hkept.synthesis.trans ?_
    unfold before opened
    cases hf : find (r.request.key host) s.windows with
    | none =>
      rw [hf] at h
      cases h
    | some w =>
      rw [hf] at h
      exact h
  cases hcases with
  | aside => exact h
  | full hwindows =>
    rcases hwindows k with hsame | ⟨hnone, -⟩
    · rw [hsame]
      exact h
    · rw [hnone] at h
      cases h
  | quiet hnone hstored =>
    rw [hstored.windows]
    split_ifs with hk
    · exact hcharged hk
    · exact h
  | decided hsome hdecided hstored =>
    rw [hstored.windows]
    split_ifs with hk
    · exact (decided_window hdecided).2.2.2.2 (hcharged hk)
    · exact h

theorem spent_of_synthesis {why : String} (h : (admitRequest limits host s r).1 = .synthesis why) :
    Spent (r.request.key host) (step limits host s r) := by
  have hcases := admitRequest_outcome limits host s r
  unfold Spent step
  generalize admitRequest limits host s r = o at hcases h
  cases hcases with
  | aside => cases h
  | full => cases h
  | quiet => cases h
  | decided hsome hdecided hstored =>
    obtain rfl : _ = Verdict.synthesis why := h
    rw [hstored.windows, if_pos rfl]
    exact decided_synthesis hdecided

/-- **After its last request** nothing of a window is admitted. -/
theorem refused_of_spent (hgood : Good s) (hcovered : Covered host s r)
    (h : Spent (r.request.key host) s) : ∃ message, (admitRequest limits host s r).1 = .refused message := by
  have hcases := admitRequest_outcome limits host s r
  generalize admitRequest limits host s r = o at hcases
  have hbefore : (before host s r).1.synthesis = true := by
    unfold Spent at h
    unfold before opened
    cases hf : find (r.request.key host) s.windows with
    | none =>
      rw [hf] at h
      cases h
    | some w =>
      rw [hf] at h
      exact h
  -- a request that goes past the counts would not be covered
  have hresearch : r.request.researchCalls = [] → (before host s r).1.research = false →
      (before host s r).2.research = false → False := by
    intro hcalls hw hg
    rcases (hcovered hcalls).2 hbefore with htrue | htrue
    · exact absurd (hw.symm.trans htrue) (by decide)
    · exact absurd (hg.symm.trans htrue) (by decide)
  cases hcases with
  | aside hcalls hgroup =>
    refine (hresearch hcalls ((hcovered hcalls).1 hgroup) ?_).elim
    unfold before opened
    rw [hgroup]
    rfl
  | full => exact ⟨_, rfl⟩
  | quiet hnone hstored =>
    obtain ⟨hcalls, hsame⟩ := charged_of_idle hgood hnone.1
    rw [hsame] at hnone
    exact (hresearch hcalls hnone.1 hnone.2).elim
  | decided hsome hdecided hstored =>
    have hkept : Kept (before host s r) (charged host s r) := kept_countAll
    have hspent : (charged host s r).1.request.synthesis = true := hkept.synthesis.trans hbefore
    exact decided_of_spent (c := ((charged host s r).1.request, (charged host s r).2.request)) hspent hdecided

/-- What a request that is admitted with its tools leaves. -/
structure Below (limits : Limits) (host : Host) (s : State) (r : Call) : Prop where
  window : ∀ w, find (r.request.key host) s.windows = some w → w.calls.length < limits.workerCalls ∧
    ∀ f n, find f w.repeats = some n → n < limits.repeatLimit
  group : ∀ g, find (r.request.group host) s.groups = some g → g.calls.length < limits.sharedCalls

theorem below_of_idle {w : Window String} (hok : WindowOk w) (hidle : w.research = false) :
    w.calls.length < limits.workerCalls ∧ ∀ f n, find f w.repeats = some n → n < limits.repeatLimit := by
  have hcalls := hok.idle hidle
  have hsum := hok.total
  rw [hcalls, List.length_nil] at hsum
  refine ⟨?_, fun f n hn => ?_⟩
  · rw [hcalls]
    exact limits.positive.1
  · have hmem : n ∈ w.repeats.map Prod.snd := by
      unfold find at hn
      obtain ⟨p, hp, rfl⟩ := Option.map_eq_some_iff.mp hn
      exact List.mem_map_of_mem (mem_of_lookup hp)
    have hle : n ≤ (w.repeats.map Prod.snd).sum := List.le_sum_of_mem hmem
    rw [hsum] at hle
    exact hle.trans_lt limits.positive.2.2.2.2

/-- **A request that is admitted with its tools** leaves all counts of calls below their limits. -/
theorem below_of_intact (hgood : Good s) (hcovered : Covered host s r)
    (h : (admitRequest limits host s r).1 = .intact) : Below limits host (step limits host s r) r := by
  have hcases := admitRequest_outcome limits host s r
  unfold step
  generalize admitRequest limits host s r = o at hcases h
  cases hcases with
  | aside hcalls hgroup =>
    refine ⟨fun w hw => below_of_idle (hgood.windows _ w hw) ?_, fun g hg => ?_⟩
    · have hidle := (hcovered hcalls).1 hgroup
      unfold before opened at hidle
      rw [hw] at hidle
      exact hidle
    · exact nomatch hgroup.symm.trans hg
  | full => cases h
  | quiet hnone hstored =>
    refine ⟨fun w hw => ?_, fun g hg => ?_⟩
    · rw [hstored.windows, if_pos rfl] at hw
      obtain rfl := Option.some.inj hw
      exact below_of_idle (windowOk_charged hgood) hnone.1
    · rw [hstored.groups, if_pos rfl] at hg
      obtain rfl := Option.some.inj hg
      rw [(groupOk_charged hgood).idle hnone.2]
      exact limits.positive.2.1
  | decided hsome hdecided hstored =>
    obtain rfl : _ = Verdict.intact := h
    obtain ⟨hreason, rfl⟩ := decided_intact hdecided
    obtain ⟨hrepeats, hcalls, hshared, -, -⟩ := reason_eq_none hreason
    refine ⟨fun w hw => ?_, fun g hg => ?_⟩
    · rw [hstored.windows, if_pos rfl] at hw
      obtain rfl := Option.some.inj hw
      exact ⟨hcalls, fun f n hn => (le_most hn).trans_lt hrepeats⟩
    · rw [hstored.groups, if_pos rfl] at hg
      obtain rfl := Option.some.inj hg
      exact hshared

end Limits

/-! ### Runs -/

def ofWindow (limits : Limits) (host : Host) (k : Key) (s : State) (r : Call) : ℕ :=
  if r.request.key host = k ∧ Toolful limits host s r then 1 else 0

def ofGroup (limits : Limits) (host : Host) (k : GroupKey) (s : State) (r : Call) : ℕ :=
  if r.request.group host = k ∧ Toolful limits host s r then 1 else 0

theorem good_start : Good {} := ⟨nofun, nofun⟩

/-- **Every call is counted once**, however often it is shown: a window has the calls that its requests
have shown, each once and with one fingerprint. -/
theorem calls_counted_once (limits : Limits) (host : Host) (rs : List Call) :
    (∀ k w, find k (run (step limits host) {} rs).windows = some w →
      w.calls.Nodup ∧ (w.repeats.map Prod.snd).sum = w.calls.length ∧
        ∀ id ∈ w.calls, ∃ r ∈ rs, r.request.key host = k ∧ ∃ item ∈ r.request.researchCalls, item.callId = id) ∧
      (∀ k g, find k (run (step limits host) {} rs).groups = some g → g.calls.Nodup) ∧
      Along (step limits host) (Counted limits host) {} rs := by
  have hany : Along (step limits host) (fun _ _ => True) {} rs := along_of_forall fun _ _ => trivial
  have hgood : Good (run (step limits host) {} rs) := inv_run (fun s r h _ => good_step h) good_start hany
  have hshown : Shown host rs (run (step limits host) {} rs) := by
    suffices h : ∀ (seen : List Call) (s : State), Shown host seen s →
        Shown host (seen ++ rs) (run (step limits host) s rs) from h [] {} nofun
    clear hany hgood
    induction rs with
    | nil =>
      intro seen s h
      rw [List.append_nil]
      exact h
    | cons r rs ih =>
      intro seen s h
      have hnext : Shown host (seen ++ [r]) (step limits host s r) := shown_step h
      have hrest := ih (seen ++ [r]) _ hnext
      rwa [List.append_assoc, List.singleton_append] at hrest
  refine ⟨fun k w hw => ?_, fun k g hg => (hgood.groups k g hg).nodup, ?_⟩
  · have hok := hgood.windows k w hw
    exact ⟨hok.nodup, hok.total, hshown k w hw⟩
  · exact hany.mono fun s r _ => counted_step

section Runs
variable {limits : Limits} {rs : List Call} (hcovered : Along (step limits host) (Covered host) {} rs)

include hcovered

theorem worker_requests_bounded (k : Key) :
    total (step limits host) (ofWindow limits host k) {} rs < limits.workerRequests := by
  refine total_lt (φ := fun s => requests k s.windows) limits.positive.2.2.1
    (fun s r h _ => good_step h) (fun s r _ _ => requests_step.1 k)
    (fun s r _ hc => ?_) good_start hcovered
  unfold ofWindow
  split_ifs with h
  · obtain ⟨rfl, htoolful⟩ := h
    exact Or.inr ⟨rfl, (requests_of_toolful hc htoolful).1⟩
  · exact Or.inl rfl

theorem shared_requests_bounded (k : GroupKey) :
    total (step limits host) (ofGroup limits host k) {} rs < limits.sharedRequests := by
  refine total_lt (φ := fun s => requests k s.groups) limits.positive.2.2.2.1
    (fun s r h _ => good_step h) (fun s r _ _ => requests_step.2 k)
    (fun s r _ hc => ?_) good_start hcovered
  unfold ofGroup
  split_ifs with h
  · obtain ⟨rfl, htoolful⟩ := h
    exact Or.inr ⟨rfl, (requests_of_toolful hc htoolful).2⟩
  · exact Or.inl rfl

theorem refused_after_synthesis {past mid rest : List Call} {r r' : Call} {why : String}
    (hrs : rs = past ++ r :: (mid ++ r' :: rest)) (hkey : r'.request.key host = r.request.key host)
    (hsynthesis : (admitRequest limits host (run (step limits host) {} past) r).1 = .synthesis why) :
    ∃ message, (admitRequest limits host (run (step limits host) {} (past ++ r :: mid)) r').1 = .refused message := by
  rw [hrs, along_append] at hcovered
  obtain ⟨hpast, -, hafter⟩ := hcovered
  rw [along_append] at hafter
  obtain ⟨hmid, hlater, -⟩ := hafter
  have hany : ∀ s as, Along (step limits host) (fun _ _ => True) s as :=
    fun s as => along_of_forall fun _ _ => trivial
  have hgood : Good (run (step limits host) {} (past ++ r :: mid)) :=
    inv_run (fun s r h _ => good_step h) good_start (hany _ _)
  rw [run_append, run_cons] at hgood ⊢
  have hspent : Spent (r.request.key host) (run (step limits host)
      (step limits host (run (step limits host) {} past) r) mid) :=
    inv_run (fun s r h _ => spent_step h) (spent_of_synthesis hsynthesis) (hany _ _)
  exact refused_of_spent hgood hlater (hkey ▸ hspent)

end Runs

/-- The limits hold over a sequence of requests. -/
structure LimitsHold (limits : Limits) (host : Host) (rs : List Call) : Prop where
  /-- each call of a window is counted once, -/
  once : ∀ k w, find k (run (step limits host) {} rs).windows = some w →
    w.calls.Nodup ∧ (w.repeats.map Prod.snd).sum = w.calls.length ∧
      ∀ id ∈ w.calls, ∃ r ∈ rs, r.request.key host = k ∧ ∃ item ∈ r.request.researchCalls, item.callId = id
  shared : ∀ k g, find k (run (step limits host) {} rs).groups = some g → g.calls.Nodup
  counted : Along (step limits host) (Counted limits host) {} rs
  /-- the requests with tools are fewer than the limits, -/
  worker : ∀ k, total (step limits host) (ofWindow limits host k) {} rs < limits.workerRequests
  group : ∀ k, total (step limits host) (ofGroup limits host k) {} rs < limits.sharedRequests
  /-- one request is without tools, and nothing is admitted after it, -/
  last : ∀ past r mid r' rest why, rs = past ++ r :: (mid ++ r' :: rest) →
    r'.request.key host = r.request.key host →
    (admitRequest limits host (run (step limits host) {} past) r).1 = .synthesis why →
    ∃ message, (admitRequest limits host (run (step limits host) {} (past ++ r :: mid)) r').1 = .refused message
  /-- and a request with its tools is below the limits of calls. -/
  below : Along (step limits host)
    (fun s r => (admitRequest limits host s r).1 = .intact → Below limits host (step limits host s r) r) {} rs

/-- **All limits hold** over the requests of any threads and turns that are `Covered`, and a last request
has neither tools nor names for them. -/
theorem limits_hold (limits : Limits) (host : Host) (rs : List Call)
    (hcovered : Along (step limits host) (Covered host) {} rs) :
    LimitsHold limits host rs ∧
      ∀ p q why, applied p (.synthesis why) = some q → q.tools = none ∧ q.toolChoice = none ∧ q.mapping = [] := by
  refine ⟨?_, ?_⟩
  · obtain ⟨honce, hshared, hcounted⟩ := calls_counted_once limits host rs
    exact {
      once := honce
      shared := hshared
      counted := hcounted
      worker := worker_requests_bounded hcovered
      group := shared_requests_bounded hcovered
      last := fun past r mid r' rest why hrs hkey hsynthesis =>
        refused_after_synthesis hcovered hrs hkey hsynthesis
      below := along_of_inv (fun s r h _ => good_step h)
        (fun s r hgood hc hintact => below_of_intact hgood hc hintact) good_start hcovered }
  · intro p q why hq
    obtain rfl := Option.some.inj hq
    exact ⟨rfl, rfl, rfl⟩

def plain : Host := ⟨fun items => String.join (items.map Item.content), fun item => item.name ++ item.arguments⟩

def searched (id : String) : Item := { type := "function_call", name := "web_search", callId := id }

def asked (root : Option String) (ids : List String) : Call where
  request := {
    threadId := some "t", turnId := some "u", rootTurnId := root
    input := { role := "user", content := "find it" } :: ids.map searched }
  now := 0

/-- Three identical calls are the last, and a resent history changes nothing. -/
theorem limits_hold_resent :
    LimitsHold {} plain [asked (some "r") ["1"], asked (some "r") ["1", "2", "3"], asked (some "r") ["3"]] ∧
      (admitRequest {} plain (run (step {} plain) {} [asked (some "r") ["1"]])
        (asked (some "r") ["1", "2", "3"])).1 =
          .synthesis "Repeated identical research calls produced no new retrieval opportunity" :=
  ⟨(limits_hold {} plain _ (by decide)).1, by decide⟩

/-- The root of the turn is no longer known, and after its last request the turn has its tools again. -/
theorem admitted_after_last :
    ¬ LimitsHold {} plain [asked (some "r") ["1", "2", "3"], asked none []] := by
  intro h
  obtain ⟨message, hmessage⟩ := h.last [] (asked (some "r") ["1", "2", "3"]) [] (asked none []) []
    "Repeated identical research calls produced no new retrieval opportunity" rfl rfl (by decide)
  have hintact : (admitRequest {} plain (run (step {} plain) {} [asked (some "r") ["1", "2", "3"]])
      (asked none [])).1 = .intact := by
    decide
  exact nomatch hintact.symm.trans hmessage

end Smara.Provider.Budgets
