import Smara.Server.Onboarding

/-! # The uses of an invite

The uses of a code are those of the tenants that have joined with it, those of the messages that are about to
join, and those that were lost: to a message that has failed after it took one, or to a tenant that has joined
twice.

* `step_accounts`: what a step does to the account of each code.
* `run_accounts`: the account after a run.
* `accounts_iff`: no use is lost exactly if no message fails with one, and no tenant joins twice. -/

namespace Smara.Server.Onboarding

open Lib.Machine Lib.Table

variable {host : Host} {s : State}

structure Inv (s : State) : Prop where
  codes : Keyed Invite.code s.invites
  bounded : ∀ i ∈ s.invites, i.uses ≤ i.maxUses
  ids : s.tenants.map Tenant.id = List.range s.tenants.length
  phones : Keyed Tenant.ownerPhone s.tenants
  joins : ∀ id code, Job.join id code ∈ s.jobs → id < s.tenants.length

theorem inv_start (now : TaskStore.Schema.Time) : Inv { now } :=
  ⟨List.nodup_nil, by simp, rfl, List.nodup_nil, by simp⟩

theorem Inv.keyedIds (h : Inv s) : Keyed Tenant.id s.tenants := by
  unfold Keyed
  rw [h.ids]
  exact List.nodup_range

def Accounts (s s' : State) (gone : List String) : Prop :=
  ∀ c, s'.uses c + s.joined.count c + s.held.count c =
    s.uses c + s'.joined.count c + s'.held.count c + gone.count c

/-! ### What the transactions do to the accounts -/

theorem held_append (jobs jobs' : List Job) :
    (jobs ++ jobs').filterMap Job.holds = jobs.filterMap Job.holds ++ jobs'.filterMap Job.holds :=
  List.filterMap_append

theorem count_held_eraseIdx {job : ℕ} {j : Job} (h : s.jobs[job]? = some j) (c : String) :
    s.held.count c = j.holds.toList.count c + ((s.jobs.eraseIdx job).filterMap Job.holds).count c := by
  obtain ⟨hlt, rfl⟩ := List.getElem?_eq_some_iff.mp h
  have hperm := (List.getElem_cons_eraseIdx_perm hlt).filterMap Job.holds
  unfold State.held
  rw [← hperm.count_eq c, List.filterMap_cons]
  cases s.jobs[job].holds with
  | none => simp
  | some c' =>
    simp only [Option.toList_some, List.count_cons, List.count_nil]
    omega

/-- The job is before the first transaction of `create_shop`, or is this one. -/
def Job.Early : Job → Prop
  | .create .. | .join .. => False
  | _ => True

theorem Job.Early.holds {j : Job} (h : j.Early) : j.holds = none := by
  cases j with
  | create | join => exact h.elim
  | _ => rfl

theorem early_answer {phone text : String} {session : Option Session} {j : Job}
    (h : answer host phone text session = some j) : j.Early := by
  unfold answer at h
  split at h
  · dsimp only at h
    split_ifs at h
    obtain rfl := Option.some.inj h
    trivial
  · split_ifs at h
    · obtain rfl := Option.some.inj h
      trivial
    · obtain rfl := Option.some.inj h
      trivial
  · split at h
    · obtain rfl := Option.some.inj h
      trivial
    · split_ifs at h
      obtain rfl := Option.some.inj h
      trivial

theorem held_withJob {j : Option Job} (h : ∀ j' ∈ j, j'.holds = none) : (s.withJob j).held = s.held := by
  unfold State.held State.withJob
  dsimp only
  rw [held_append]
  cases j with
  | none => simp
  | some j => simp [h j rfl]

theorem uses_take (h : Inv s) {code : String} (hvalid : ∃ i ∈ s.invites, Valid s.now code i) (c : String) :
    ((lookup Invite.code c (updateWhere (Valid s.now code) (fun i => { i with uses := i.uses + 1 }) s.invites)).map
      Invite.uses).getD 0 = s.uses c + [code].count c := by
  obtain ⟨i, hi, hvalid⟩ := hvalid
  rw [lookup_updateWhere (f := fun i : Invite => { i with uses := i.uses + 1 }) fun _ _ => rfl]
  unfold State.uses
  by_cases hc : c = code
  · subst hc
    have hlookup : lookup Invite.code c s.invites = some i := (lookup_eq_some_iff h.codes).mpr ⟨hi, hvalid.1⟩
    simp [hlookup, hvalid]
  · have hcount : [code].count c = 0 := by simp [Ne.symm hc]
    rw [hcount, Nat.add_zero]
    cases hlookup : lookup Invite.code c s.invites with
    | none => rfl
    | some i' =>
      have hnot : ¬ Valid s.now code i' := fun hv => hc ((key_of_lookup hlookup).symm.trans hv.1)
      simp [hnot]

theorem joined_updateWhere {tenants : List Tenant} {p : Tenant → Prop} [DecidablePred p] {f : Tenant → Tenant}
    (hf : ∀ r, (f r).joinedWithCode = r.joinedWithCode) :
    (updateWhere p f tenants).filterMap Tenant.joinedWithCode = tenants.filterMap Tenant.joinedWithCode := by
  unfold updateWhere
  rw [List.filterMap_map]
  refine List.filterMap_congr fun r _ => ?_
  dsimp only [Function.comp]
  split_ifs
  · exact hf r
  · rfl

theorem createTenant_cases (h : Inv s) (phone name : String) (upi : Option String) :
    (createTenant phone name upi s.tenants).2.filterMap Tenant.joinedWithCode = s.joined ∧
      (createTenant phone name upi s.tenants).2.map Tenant.id =
        List.range (createTenant phone name upi s.tenants).2.length ∧
      Keyed Tenant.ownerPhone (createTenant phone name upi s.tenants).2 ∧
      (createTenant phone name upi s.tenants).1 < (createTenant phone name upi s.tenants).2.length ∧
      s.tenants.length ≤ (createTenant phone name upi s.tenants).2.length := by
  unfold createTenant
  dsimp only
  have hkeyed := h.phones.upsert (r := ⟨((lookup Tenant.ownerPhone phone s.tenants).map Tenant.id).getD
    s.tenants.length, name, phone, upi, none⟩) (f := fun r => { r with name, upiVpa := upi }) fun _ hr => hr
  refine ⟨?_, ?_, hkeyed, ?_⟩
  all_goals unfold upsert
  · split_ifs
    · exact joined_updateWhere fun _ => rfl
    · rw [List.filterMap_append]
      exact List.append_nil _
  · split_ifs with hex
    · rw [map_updateWhere (f := fun r : Tenant => { r with name, upiVpa := upi }) fun _ _ => rfl, length_updateWhere]
      exact h.ids
    · have hnone : lookup Tenant.ownerPhone phone s.tenants = none :=
        lookup_eq_none.mpr fun t ht hphone => hex ⟨t, ht, hphone⟩
      rw [List.map_append, h.ids, hnone, List.length_append, List.length_singleton, List.range_succ]
      rfl
  · split_ifs with hex
    · obtain ⟨t, ht, hphone⟩ := hex
      have hlookup : lookup Tenant.ownerPhone phone s.tenants = some t :=
        (lookup_eq_some_iff h.phones).mpr ⟨ht, hphone⟩
      have hid : t.id ∈ s.tenants.map Tenant.id := List.mem_map_of_mem ht
      rw [h.ids, List.mem_range] at hid
      rw [length_updateWhere, hlookup]
      exact ⟨hid, Nat.le_refl _⟩
    · have hnone : lookup Tenant.ownerPhone phone s.tenants = none :=
        lookup_eq_none.mpr fun t ht hphone => hex ⟨t, ht, hphone⟩
      rw [hnone, List.length_append, List.length_singleton]
      exact ⟨Nat.lt_succ_self _, Nat.le_succ _⟩

theorem joined_join (h : Inv s) {id : ℕ} (hid : id < s.tenants.length) (code : Option String) (c : String) :
    ((updateWhere (fun r => r.id = id) (fun r => { r with joinedWithCode := code }) s.tenants).filterMap
        Tenant.joinedWithCode).count c + ((lookup Tenant.id id s.tenants).bind Tenant.joinedWithCode).toList.count c =
      s.joined.count c + code.toList.count c := by
  have hmem : id ∈ s.tenants.map Tenant.id := by
    rw [h.ids]
    exact List.mem_range.mpr hid
  obtain ⟨r, hr, rfl⟩ := List.mem_map.mp hmem
  obtain ⟨pre, post, hsplit, hupdate⟩ := updateWhere_split (f := fun r : Tenant => { r with joinedWithCode := code })
    h.keyedIds hr (p := fun r' => r'.id = r.id) rfl fun _ h => h
  have hlookup : lookup Tenant.id r.id s.tenants = some r := lookup_key h.keyedIds hr
  rw [hupdate, hlookup]
  unfold State.joined
  rw [hsplit]
  simp only [List.filterMap_append, List.filterMap_cons, Option.bind_some, List.count_append]
  cases code <;> cases r.joinedWithCode <;> simp [List.count_cons] <;> omega

/-! ### One step -/

theorem accounts_quiet {s' : State} (huses : ∀ c, s'.uses c = s.uses c) (hjoined : s'.joined = s.joined)
    (hheld : ∀ c, s'.held.count c = s.held.count c) : Accounts s s' [] := by
  intro c
  rw [huses, hjoined, hheld]
  rfl

theorem held_quiet {job : ℕ} {j : Job} (hj : s.jobs[job]? = some j) (hnone : j.holds = none) {j' : Option Job}
    (h : ∀ j'' ∈ j', j''.holds = none) (c : String) :
    (State.withJob j' { s with jobs := s.jobs.eraseIdx job }).held.count c = s.held.count c := by
  rw [held_withJob h, count_held_eraseIdx hj, hnone, Option.toList_none, List.count_nil, Nat.zero_add]
  rfl

theorem holds_some {j j' : Job} (h : j' ∈ some j) (hnone : j.holds = none) : j'.holds = none := by
  rw [← Option.some.inj h]
  exact hnone

/-- **What a transaction does to the accounts.** -/
theorem goOn_accounts (h : Inv s) {job : ℕ} {j : Job} (hj : s.jobs[job]? = some j) :
    Accounts s (goOn host { s with jobs := s.jobs.eraseIdx job } j) (lost s (.goOn job)).toList := by
  unfold lost
  simp only [hj]
  cases j with
  | session phone text =>
    refine accounts_quiet (fun _ => rfl) rfl (held_quiet hj rfl fun j' hj' => ?_)
    exact (early_answer hj').holds
  | check phone code =>
    dsimp only [goOn]
    split_ifs
    · exact accounts_quiet (fun _ => rfl) rfl (held_quiet hj rfl fun j' hj' => holds_some hj' rfl)
    · exact accounts_quiet (fun _ => rfl) rfl (held_quiet hj rfl fun j' hj' => holds_some hj' rfl)
    · exact accounts_quiet (fun _ => rfl) rfl (held_quiet hj rfl (by simp))
  | invited phone code | welcome phone | named phone name =>
    refine accounts_quiet (fun _ => rfl) rfl fun c => ?_
    rw [count_held_eraseIdx hj c]
    exact (Nat.zero_add _).symm
  | take phone name upi code =>
    cases code with
    | none => exact accounts_quiet (fun _ => rfl) rfl (held_quiet hj rfl fun j' hj' => holds_some hj' rfl)
    | some code =>
      dsimp only [goOn]
      split_ifs with hvalid
      · intro c
        have hheld := count_held_eraseIdx hj c
        have huses := uses_take h hvalid c
        unfold State.uses State.held State.joined at *
        dsimp only at huses ⊢
        rw [huses, hheld, held_append, List.count_append]
        simp only [Job.holds, Option.toList_none, List.count_nil, List.filterMap_cons, List.filterMap_nil]
        omega
      · refine accounts_quiet (fun _ => rfl) rfl fun c => ?_
        rw [count_held_eraseIdx hj c]
        exact (Nat.zero_add _).symm
  | create phone name upi code =>
    intro c
    have hheld := count_held_eraseIdx hj c
    have hcases := createTenant_cases h phone name upi
    dsimp only [goOn]
    rw [hheld]
    unfold State.held State.joined State.uses at *
    dsimp only
    have hsame (id : ℕ) : [Job.join id code].filterMap Job.holds = (Job.create phone name upi code).holds.toList := by
      cases code <;> rfl
    rw [hcases.1, held_append, hsame, List.count_append, Option.toList_none, List.count_nil]
    omega
  | join id code =>
    intro c
    have hheld := count_held_eraseIdx hj c
    have hjoined := joined_join h (h.joins id code (List.mem_of_getElem? hj)) code c
    dsimp only [goOn]
    rw [hheld]
    unfold State.held State.joined State.uses at *
    dsimp only [Job.holds] at hjoined ⊢
    omega

theorem step_accounts (h : Inv s) (op : Op) : Accounts s (step host s op) (lost s op).toList := by
  cases op with
  | pass elapsed => exact fun _ => rfl
  | createInvite code maxUses expires =>
    dsimp only [step]
    split_ifs with hex
    · exact fun _ => rfl
    · refine accounts_quiet (fun c => ?_) rfl fun _ => rfl
      unfold State.uses
      dsimp only
      rw [lookup_append]
      cases hlookup : lookup Invite.code c s.invites with
      | some i => rfl
      | none =>
        by_cases hc : code = c
        · simp [lookup, hc]
        · simp [lookup, hc]
  | revokeInvite code =>
    refine accounts_quiet (fun c => ?_) rfl fun _ => rfl
    unfold State.uses
    dsimp only [step]
    rw [lookup_updateWhere_map (f := fun i : Invite => { i with revoked := some s.now }) (fun _ _ => rfl)
      fun _ _ => rfl]
  | stranger phone text =>
    dsimp only [step]
    split_ifs
    · exact fun _ => rfl
    · refine accounts_quiet (fun _ => rfl) rfl fun c => ?_
      rw [held_withJob fun j' hj' => holds_some hj' rfl]
  | goOn job =>
    dsimp only [step]
    cases hj : s.jobs[job]? with
    | none =>
      unfold lost
      simp only [hj]
      exact fun _ => rfl
    | some j => exact goOn_accounts h hj
  | fail job =>
    intro c
    cases hj : s.jobs[job]? with
    | none =>
      have hlen : s.jobs.length ≤ job := List.getElem?_eq_none_iff.mp hj
      simp only [step, lost, hj, List.eraseIdx_of_length_le hlen]
      rfl
    | some j =>
      have hheld := count_held_eraseIdx hj c
      simp only [step, lost, hj]
      unfold State.held State.joined State.uses at *
      dsimp only [Option.bind_some]
      omega

/-! ### What every run keeps -/

theorem inv_goOn (h : Inv s) (j : Job) (hj : ∀ id code, j = .join id code → id < s.tenants.length) :
    Inv (goOn host s j) := by
  have hjob (j' : Option Job) (hj' : ∀ id code, some (Job.join id code) ≠ j') : Inv (s.withJob j') := by
    refine ⟨h.codes, h.bounded, h.ids, h.phones, fun id code hmem => ?_⟩
    rcases List.mem_append.mp hmem with hmem | hmem
    · exact h.joins id code hmem
    · exact absurd (Option.mem_toList.mp hmem).symm (hj' id code)
  cases j with
  | session phone text =>
    exact hjob _ fun id code heq => early_answer heq.symm
  | check phone code =>
    dsimp only [goOn]
    split_ifs
    · exact hjob _ (by simp)
    · exact hjob _ (by simp)
    · exact hjob _ (by simp)
  | invited phone code | welcome phone | named phone name => exact ⟨h.codes, h.bounded, h.ids, h.phones, h.joins⟩
  | take phone name upi code =>
    cases code with
    | none =>
      have hdone := hjob (some (.create phone name upi none)) (by simp)
      exact ⟨h.codes, h.bounded, h.ids, h.phones, hdone.joins⟩
    | some code =>
      dsimp only [goOn]
      split_ifs with hvalid
      · refine ⟨(keyed_updateWhere ?_).mpr h.codes, ?_, h.ids, h.phones, fun id code' hmem => ?_⟩
        · exact fun _ _ => rfl
        · intro i' hi'
          obtain ⟨i, hi, rfl⟩ := mem_updateWhere.mp hi'
          split_ifs with hv
          · exact hv.2.2.1
          · exact h.bounded i hi
        · rcases List.mem_append.mp hmem with hmem | hmem
          · exact h.joins id code' hmem
          · simp at hmem
      · exact ⟨h.codes, h.bounded, h.ids, h.phones, h.joins⟩
  | create phone name upi code =>
    obtain ⟨-, hids, hphones, hid, hgrown⟩ := createTenant_cases h phone name upi
    refine ⟨h.codes, h.bounded, hids, hphones, fun id code' hmem => ?_⟩
    rcases List.mem_append.mp hmem with hmem | hmem
    · exact Nat.lt_of_lt_of_le (h.joins id code' hmem) hgrown
    · rw [List.mem_singleton, Job.join.injEq] at hmem
      rw [hmem.1]
      exact hid
  | join id code =>
    have hphones : Keyed Tenant.ownerPhone
        (updateWhere (fun r => r.id = id) (fun r => { r with joinedWithCode := code }) s.tenants) := by
      refine (keyed_updateWhere ?_).mpr h.phones
      exact fun _ _ => rfl
    refine ⟨h.codes, h.bounded, ?_, hphones, fun id' code' hmem => ?_⟩
    · dsimp only [goOn]
      rw [map_updateWhere (f := fun r : Tenant => { r with joinedWithCode := code }) fun _ _ => rfl,
        length_updateWhere]
      exact h.ids
    · dsimp only [goOn]
      rw [length_updateWhere]
      exact h.joins id' code' hmem

theorem inv_step (h : Inv s) (op : Op) : Inv (step host s op) := by
  have herase (job : ℕ) : Inv { s with jobs := s.jobs.eraseIdx job } :=
    ⟨h.codes, h.bounded, h.ids, h.phones, fun id code hmem => h.joins id code (List.mem_of_mem_eraseIdx hmem)⟩
  cases op with
  | pass elapsed => exact ⟨h.codes, h.bounded, h.ids, h.phones, h.joins⟩
  | createInvite code maxUses expires =>
    dsimp only [step]
    split_ifs with hex
    · exact h
    · push Not at hex
      refine ⟨keyed_append.mpr ⟨h.codes, List.nodup_singleton _, ?_⟩, ?_, h.ids, h.phones, h.joins⟩
      · intro i hi i' hi'
        rw [List.mem_singleton.mp hi']
        exact hex i hi
      · intro i hi
        rcases List.mem_append.mp hi with hi | hi
        · exact h.bounded i hi
        · rw [List.mem_singleton.mp hi]
          exact Nat.zero_le _
  | revokeInvite code =>
    have hcodes : Keyed Invite.code
        (updateWhere (fun i => i.code = code) (fun i => { i with revoked := some s.now }) s.invites) := by
      refine (keyed_updateWhere ?_).mpr h.codes
      exact fun _ _ => rfl
    refine ⟨hcodes, fun i' hi' => ?_, h.ids, h.phones, h.joins⟩
    obtain ⟨i, hi, rfl⟩ := mem_updateWhere.mp hi'
    split_ifs <;> exact h.bounded i hi
  | stranger phone text =>
    dsimp only [step]
    split_ifs
    · exact h
    · refine ⟨h.codes, h.bounded, h.ids, h.phones, fun id code hmem => ?_⟩
      rcases List.mem_append.mp hmem with hmem | hmem
      · exact h.joins id code hmem
      · simp at hmem
  | goOn job =>
    dsimp only [step]
    cases hj : s.jobs[job]? with
    | none => exact h
    | some j =>
      refine inv_goOn (herase job) j fun id code heq => h.joins id code ?_
      rw [← heq]
      exact List.mem_of_getElem? hj
  | fail job => exact herase job

/-- **The account after a run**: the uses of a code are those of the tenants that have joined with it, of the
messages that are about to, and those that were lost. -/
theorem run_accounts (h : Inv s) (ops : List Op) : Inv (run (step host) s ops) ∧
    Accounts s (run (step host) s ops) (outputs (step host) lost s ops) := by
  induction ops generalizing s with
  | nil => exact ⟨h, fun _ => rfl⟩
  | cons op ops ih =>
    obtain ⟨hinv, haccounts⟩ := ih (inv_step h op)
    refine ⟨hinv, fun c => ?_⟩
    have hstep : Accounts s (step host s op) (lost s op).toList := step_accounts h op
    have hone := hstep c
    have hrun := haccounts c
    rw [run_cons, outputs, List.count_append]
    omega

theorem outputs_eq_nil {ops : List Op} : outputs (step host) lost s ops = [] ↔
    Along (step host) (fun s op => lost s op = none) s ops := by
  induction ops generalizing s with
  | nil => simp [outputs]
  | cons op ops ih => rw [outputs, List.append_eq_nil_iff, Option.toList_eq_nil_iff, ih, along_cons]

/-- **Invites.** In every run no code has more uses than it may have, and each phone has one tenant. The uses of each
code are those of the tenants that have joined with it and of the messages that are about to, exactly if no message
fails with a use that it has taken, and no tenant that has joined with a code joins once more. -/
theorem accounts_iff (host : Host) (now : TaskStore.Schema.Time) (ops : List Op) :
    (∀ i ∈ (run (step host) { now } ops).invites, i.uses ≤ i.maxUses) ∧
      Keyed Tenant.ownerPhone (run (step host) { now } ops).tenants ∧
      ((∀ c, (run (step host) { now } ops).uses c =
          (run (step host) { now } ops).joined.count c + (run (step host) { now } ops).held.count c) ↔
        Along (step host) (fun s op => lost s op = none) { now } ops) := by
  obtain ⟨hinv, haccounts⟩ : Inv (run (step host) { now } ops) ∧ Accounts { now } (run (step host) { now } ops)
      (outputs (step host) lost { now } ops) := run_accounts (inv_start now) ops
  refine ⟨hinv.bounded, hinv.phones, ?_⟩
  rw [← outputs_eq_nil]
  have hstart : ∀ c, ({ now } : State).uses c = 0 ∧ ({ now } : State).joined.count c = 0 ∧
      ({ now } : State).held.count c = 0 := fun _ => ⟨rfl, rfl, rfl⟩
  constructor
  · intro hbalanced
    refine List.eq_nil_iff_forall_not_mem.mpr fun c hc => ?_
    have hpos := List.count_pos_iff.mpr hc
    have hc := haccounts c
    rw [(hstart c).1, (hstart c).2.1, (hstart c).2.2, hbalanced c] at hc
    omega
  · intro hnil c
    have hc := haccounts c
    rw [(hstart c).1, (hstart c).2.1, (hstart c).2.2, hnil, List.count_nil] at hc
    omega

/-- A host of codes that begin with `JOIN`, and of texts without white space around them. -/
def plainHost : Host where
  codeFrom text := if "JOIN ".toList <+: text.toList then some (String.ofList (text.toList.drop 5)) else none
  squeeze := id
  upper := id
  lower := id
  skips text := text = "skip"
  isUpi _ := false
  openSignup := false

/-- A stranger joins with a code that may be used twice, up to the question for the UPI ID. -/
def signUp : List Op :=
  [.createInvite "SMA-2222" 2 none,
    .stranger "919811100777" "JOIN SMA-2222", .goOn 0, .goOn 0, .goOn 0,
    .stranger "919811100777" "Ramesh Hardware", .goOn 0, .goOn 0]

/-- The answer, sent twice at the same time. -/
def sentTwice : List Op :=
  signUp ++ [.stranger "919811100777" "skip", .stranger "919811100777" "skip", .goOn 0, .goOn 0] ++
    List.replicate 6 (.goOn 0)

def cutOff : List Op := signUp ++ [.stranger "919811100777" "skip", .goOn 0, .goOn 0, .fail 0]

/-- Two uses for one tenant, and one use for none. -/
theorem uses_lost :
    ((run (step plainHost) {} sentTwice).uses "SMA-2222" = 2 ∧ (run (step plainHost) {} sentTwice).held = [] ∧
        (run (step plainHost) {} sentTwice).joined = ["SMA-2222"]) ∧
      (run (step plainHost) {} cutOff).uses "SMA-2222" = 1 ∧ (run (step plainHost) {} cutOff).held = [] ∧
        (run (step plainHost) {} cutOff).joined = [] := by
  decide

end Smara.Server.Onboarding
