import Smara.Server.Vault

/-! # What the vault keeps

A secret is read as it was last put, or not at all, as long as no call writes or reads with a key that a
`shred_tenant` has destroyed since the call has read it.

* `Safe`: what a user of the vault relies on.
* `Undisturbed`: the steps that no shredding has come in between.
* `safe_of_undisturbed`: a run of such steps is safe, and `rewrap_all` changes no value in it. -/

namespace Smara.Server.Vault

open Lib.Machine Lib.Sealed Lib.Table Server.Schema

/-! ### What is relied on -/

def after (tenant : Id) (name : String) (v : Option String) : Event → Option String
  | .put t n c => if t = tenant ∧ n = name then some c.message else v
  | .deleted t n => if t = tenant ∧ n = name then none else v
  | .shredded t => if t = tenant then none else v
  | .got .. | .failed .. => v

def lastPut (tenant : Id) (name : String) (log : List Event) : Option String := log.foldl (after tenant name) none

def Destroyed (log : List Event) (k : Key) : Prop :=
  ∃ pre t post, log = pre ++ .shredded t :: post ∧ ∃ n c, .put t n c ∈ pre ∧ c.key = k

/-- **What a user of the vault relies on.** -/
structure Safe (s : State) : Prop where
  decrypts : ∀ t n, .failed t n ∉ s.log
  values : ∀ t n i v, .got t n i v ∈ s.log → v = none ∨ v = lastPut t n (s.log.take i)
  destroyed : ∀ k, Destroyed s.log k → ∀ r ∈ s.keys, r.wrapped.message ≠ k

def Stored (keys : List KeyRow) (tenant : Id) (k : Key) : Prop :=
  ∃ r ∈ keys, r.tenant = tenant ∧ r.wrapped.message = k

instance (keys : List KeyRow) (tenant : Id) (k : Key) : Decidable (Stored keys tenant k) :=
  inferInstanceAs (Decidable (∃ _ ∈ _, _))

/-- The tenant of a `shred_tenant`. -/
def Job.shreds : Job → Option Id
  | .shred tenant _ => some tenant
  | _ => none

/-- A `shred_tenant` is between its two statements. -/
def Shredding (s : State) (tenant : Id) : Prop := ∃ j ∈ s.jobs, j.shreds = some tenant

instance (s : State) (tenant : Id) : Decidable (Shredding s tenant) := inferInstanceAs (Decidable (∃ _ ∈ _, _))

/-- No shredding has come between the statements of the call. -/
def Fits (s : State) : Job → Prop
  | .insertKey t _ _ => (∀ r ∈ s.keys, r.tenant ≠ t) → ¬ Shredding s t
  | .write t _ _ k => ¬ Shredding s t ∧ Stored s.keys t k
  | .readKey t _ _ i => (∃ r ∈ s.keys, r.tenant = t) → .shredded t ∉ s.log.drop i
  | .rewrap _ [] done => ∀ p ∈ done, ∀ r ∈ s.keys, r.tenant = p.1 → r.wrapped.message = p.2
  | _ => True

instance (s : State) : DecidablePred (Fits s) := fun j => by
  unfold Fits
  split <;> infer_instance

/-- The step is not one of a call that a shredding has come in between. -/
def Undisturbed (s : State) : Op → Prop
  | .goOn job => ∀ j ∈ s.jobs[job]?, Fits s j
  | _ => True

instance (s : State) : DecidablePred (Undisturbed s) := fun op => by
  unfold Undisturbed
  split <;> infer_instance

def Configured (s : State) : Prop := ∀ r ∈ s.keys, r.version ∈ s.masters

/-- The step is the commit of `rewrap_all`. -/
def Rewraps (s : State) (op : Op) : Prop :=
  ∃ job version done, op = .goOn job ∧ s.jobs[job]? = some (.rewrap version [] done)

/-! ### Logs -/

variable {s : State} {log : List Event}

theorem lastPut_snoc (tenant : Id) (name : String) (e : Event) :
    lastPut tenant name (log ++ [e]) = after tenant name (lastPut tenant name log) e := by
  simp [lastPut]

theorem destroyed_snoc {e : Event} {k : Key} : Destroyed (log ++ [e]) k ↔
    Destroyed log k ∨ ∃ t, e = .shredded t ∧ ∃ n c, .put t n c ∈ log ∧ c.key = k := by
  constructor
  · rintro ⟨pre, t, post, heq, hput⟩
    rcases List.eq_nil_or_concat post with rfl | ⟨post', e', rfl⟩
    · obtain ⟨rfl, he⟩ := List.append_inj' heq rfl
      exact Or.inr ⟨t, List.singleton_inj.mp he, hput⟩
    · have heq' : log ++ [e] = (pre ++ .shredded t :: post') ++ [e'] := by simpa using heq
      obtain ⟨hlog, -⟩ := List.append_inj' heq' rfl
      exact Or.inl ⟨pre, t, post', hlog, hput⟩
  · rintro (⟨pre, t, post, rfl, hput⟩ | ⟨t, rfl, hput⟩)
    · exact ⟨pre, t, post ++ [e], by simp, hput⟩
    · exact ⟨log, t, [], rfl, hput⟩

/-! ### The invariant -/

/-- What `get_secret` has read is what was put last then, and its key is stored as long as the tenant is not
shredded. -/
structure ReadOk (keys : List KeyRow) (log : List Event) (t : Id) (n : String) (c : Ciphertext) (i : ℕ) : Prop where
  past : i ≤ log.length
  data : c.data = aad ["secret", t, n]
  value : lastPut t n (log.take i) = some c.message
  stored : .shredded t ∉ log.drop i → Stored keys t c.key

def JobOk (keys : List KeyRow) (secrets : List SecretRow) (log : List Event) : Job → Prop
  | .readKey t n c i => ReadOk keys log t n c i
  | .shred t names => ∀ r ∈ secrets, r.tenant = t → r.name ∈ names
  | _ => True

structure Inv (s : State) : Prop where
  tenants : Keyed KeyRow.tenant s.keys
  wrapped : ∀ r ∈ s.keys, r = wrap r.tenant r.wrapped.message r.version
  generated : ∀ r ∈ s.keys, r.wrapped.message < s.generated
  distinct : Keyed (fun r => r.wrapped.message) s.keys
  ids : Keyed SecretRow.id s.secrets
  secrets : ∀ r ∈ s.secrets, ReadOk s.keys s.log r.tenant r.name r.ciphertext s.log.length
  puts : ∀ t n c, .put t n c ∈ s.log →
    c.key < s.generated ∧ ∀ r ∈ s.keys, r.wrapped.message = c.key → r.tenant = t
  jobs : ∀ j ∈ s.jobs, JobOk s.keys s.secrets s.log j
  decrypts : ∀ t n, .failed t n ∉ s.log
  values : ∀ t n i v, .got t n i v ∈ s.log →
    i ≤ s.log.length ∧ (v = none ∨ v = lastPut t n (s.log.take i))
  destroyed : ∀ k, Destroyed s.log k → ∀ r ∈ s.keys, r.wrapped.message ≠ k

theorem inv_start (current : ℕ) (masters : List ℕ) : Inv { current, masters } := by
  refine ⟨List.nodup_nil, by simp, by simp, List.nodup_nil, List.nodup_nil, by simp, by simp, by simp, by simp,
    by simp, by simp⟩

theorem Inv.safe (h : Inv s) : Safe s :=
  ⟨h.decrypts, fun t n i v hgot => (h.values t n i v hgot).2, h.destroyed⟩

theorem ReadOk.grow {keys keys' : List KeyRow} {t : Id} {n : String} {c : Ciphertext} {i : ℕ}
    (h : ReadOk keys log t n c i) {l : List Event}
    (hstored : .shredded t ∉ l → Stored keys t c.key → Stored keys' t c.key) : ReadOk keys' (log ++ l) t n c i := by
  refine ⟨?_, h.data, ?_, fun hnot => ?_⟩
  · rw [List.length_append]
    exact Nat.le_add_right_of_le h.past
  · rw [List.take_append_of_le_length h.past]
    exact h.value
  · rw [List.drop_append_of_le_length h.past, List.mem_append, not_or] at hnot
    exact hstored hnot.2 (h.stored hnot.1)

theorem values_append (h : Inv s) (l : List Event) {t : Id} {n : String} {i : ℕ} {v : Option String}
    (hgot : .got t n i v ∈ s.log) :
    i ≤ (s.log ++ l).length ∧ (v = none ∨ v = lastPut t n ((s.log ++ l).take i)) := by
  obtain ⟨hpast, hvalue⟩ := h.values t n i v hgot
  rw [List.length_append, List.take_append_of_le_length hpast]
  exact ⟨Nat.le_add_right_of_le hpast, hvalue⟩

theorem Inv.withJobs (h : Inv s) {jobs : List Job} (hjobs : ∀ j ∈ jobs, JobOk s.keys s.secrets s.log j) :
    Inv { s with jobs } := { h with jobs := hjobs }

theorem Inv.withJob (h : Inv s) {j : Job} (hj : JobOk s.keys s.secrets s.log j) : Inv (s.withJob j) := by
  refine h.withJobs fun j' hj' => ?_
  rcases List.mem_append.mp hj' with hj' | hj'
  · exact h.jobs j' hj'
  · rw [List.mem_singleton.mp hj']
    exact hj

theorem readOk_now {keys : List KeyRow} {t : Id} {n : String} {c : Ciphertext} :
    ReadOk keys log t n c log.length ↔
      c.data = aad ["secret", t, n] ∧ lastPut t n log = some c.message ∧ Stored keys t c.key := by
  constructor
  · rintro ⟨-, hdata, hvalue, hstored⟩
    rw [List.take_length] at hvalue
    exact ⟨hdata, hvalue, hstored (by simp)⟩
  · rintro ⟨hdata, hvalue, hstored⟩
    refine ⟨Nat.le_refl _, hdata, ?_, fun _ => hstored⟩
    rw [List.take_length]
    exact hvalue

theorem Stored.mono {keys keys' : List KeyRow} {t : Id} {k : Key} (h : Stored keys t k)
    (hsub : ∀ r ∈ keys, r.tenant = t → r ∈ keys') : Stored keys' t k := by
  obtain ⟨r, hr, ht, hk⟩ := h
  exact ⟨r, hsub r hr ht, ht, hk⟩

/-! ### What the steps do to it -/

/-- An event, with what it does to the tables. No key is added, and those of a tenant go if it is shredded. -/
theorem Inv.grow (h : Inv s) {e : Event} {keys : List KeyRow} {secrets : List SecretRow} (hsub : keys.Sublist s.keys)
    (hids : Keyed SecretRow.id secrets)
    (hsecrets : ∀ r ∈ secrets, r.ciphertext.data = aad ["secret", r.tenant, r.name] ∧
      after r.tenant r.name (lastPut r.tenant r.name s.log) e = some r.ciphertext.message ∧
      Stored keys r.tenant r.ciphertext.key)
    (hstored : ∀ t, e ≠ .shredded t → ∀ r ∈ s.keys, r.tenant = t → r ∈ keys)
    (hshredded : ∀ t, e = .shredded t → ∀ r ∈ keys, r.tenant ≠ t)
    (hput : ∀ t n c, e = .put t n c → Stored s.keys t c.key)
    (hshred : ∀ t names, .shred t names ∈ s.jobs → ∀ r ∈ secrets, r.tenant = t → r.name ∈ names)
    (hgot : ∀ t n i v, e = .got t n i v → i ≤ s.log.length ∧ (v = none ∨ v = lastPut t n (s.log.take i)))
    (hfailed : ∀ t n, e ≠ .failed t n) : Inv { s with keys, secrets, log := s.log ++ [e] } where
  tenants := h.tenants.sublist (hsub.map _)
  wrapped r hr := h.wrapped r (hsub.subset hr)
  generated r hr := h.generated r (hsub.subset hr)
  distinct := h.distinct.sublist (hsub.map _)
  ids := hids
  secrets r hr := by
    refine readOk_now.mpr ?_
    rw [lastPut_snoc]
    exact hsecrets r hr
  puts t n c hc := by
    rcases List.mem_append.mp hc with hc | hc
    · exact ⟨(h.puts t n c hc).1, fun r hr => (h.puts t n c hc).2 r (hsub.subset hr)⟩
    · obtain ⟨row, hrow, hrowt, hrowk⟩ := hput t n c (List.mem_singleton.mp hc).symm
      refine ⟨hrowk ▸ h.generated row hrow, fun r hr hk => ?_⟩
      rw [h.distinct.eq_of_key (hsub.subset hr) hrow (hk.trans hrowk.symm)]
      exact hrowt
  jobs j hj := by
    cases j with
    | readKey t n c i =>
      exact (h.jobs _ hj).grow fun hnot hold => hold.mono (hstored t fun heq => hnot (by simp [heq]))
    | shred t names => exact hshred t names hj
    | insertKey _ _ _ | rereadKey _ _ _ | write _ _ _ _ | rewrap _ _ _ | update _ _ _ _ _ => trivial
  decrypts t n hf := by
    rcases List.mem_append.mp hf with hf | hf
    · exact h.decrypts t n hf
    · exact hfailed t n (List.mem_singleton.mp hf).symm
  values t n i v hv := by
    rcases List.mem_append.mp hv with hv | hv
    · exact values_append h [e] hv
    · obtain ⟨hpast, hvalue⟩ := hgot t n i v (List.mem_singleton.mp hv).symm
      rw [List.length_append, List.take_append_of_le_length hpast]
      exact ⟨Nat.le_add_right_of_le hpast, hvalue⟩
  destroyed k hk r hr hrk := by
    rcases destroyed_snoc.mp hk with hk | ⟨t, rfl, n, c, hc, rfl⟩
    · exact h.destroyed k hk r (hsub.subset hr) hrk
    · exact hshredded t rfl r hr ((h.puts t n c hc).2 r (hsub.subset hr) hrk)

theorem Inv.got (h : Inv s) {t : Id} {n : String} {i : ℕ} {v : Option String} (hpast : i ≤ s.log.length)
    (hvalue : v = none ∨ v = lastPut t n (s.log.take i)) : Inv (s.add (.got t n i v)) := by
  refine h.grow (List.Sublist.refl _) h.ids (fun r hr => readOk_now.mp (h.secrets r hr)) (fun _ _ _ hr _ => hr)
    (by simp) (by simp) (fun t names hj => h.jobs (.shred t names) hj) ?_ (by simp)
  intro t' n' i' v' heq
  obtain ⟨rfl, rfl, rfl, rfl⟩ := Event.got.inj heq
  exact ⟨hpast, hvalue⟩

theorem Inv.storeSecret (h : Inv s) {t : Id} {n v : String} {k : Key} (hnot : ¬ Shredding s t)
    (hstored : Stored s.keys t k) : Inv (storeSecret t n v k s) := by
  -- the rows of the table: the new one, and those of the other ids
  have hmem : ∀ r ∈ (Vault.storeSecret t n v k s).secrets,
      r ∈ s.secrets ∧ r.id ≠ (t, n) ∨ r = ⟨t, n, ⟨k, aad ["secret", t, n], v⟩⟩ := by
    intro r hr
    rcases mem_upsert.mp hr with ⟨hr, hid⟩ | ⟨r', hr', hid, rfl⟩ | ⟨-, rfl⟩
    · exact Or.inl ⟨hr, hid⟩
    · obtain ⟨ht, hn⟩ := Prod.mk.inj hid
      exact Or.inr (by rw [ht, hn])
    · exact Or.inr rfl
  refine h.grow (List.Sublist.refl _) (h.ids.upsert fun _ hid => hid) ?_ (fun _ _ _ hr _ => hr) (by simp) ?_ ?_
    (by simp) (by simp)
  · intro r hr
    rcases hmem r hr with ⟨hr, hid⟩ | rfl
    · obtain ⟨hdata, hvalue, hkey⟩ := readOk_now.mp (h.secrets r hr)
      refine ⟨hdata, ?_, hkey⟩
      rw [after, if_neg fun heq => hid (Prod.ext heq.1.symm heq.2.symm)]
      exact hvalue
    · exact ⟨rfl, if_pos ⟨rfl, rfl⟩, hstored⟩
  · intro t' n' c' heq
    obtain ⟨rfl, rfl, rfl⟩ := Event.put.inj heq
    exact hstored
  · intro t' names hj r hr ht'
    rcases hmem r hr with ⟨hr, -⟩ | rfl
    · exact h.jobs (.shred t' names) hj r hr ht'
    · exact absurd ⟨_, hj, congrArg some ht'.symm⟩ hnot

theorem Inv.deleteSecret (h : Inv s) (t : Id) (n : String) :
    Inv { s with
      secrets := deleteWhere (fun r => r.id = (t, n)) s.secrets
      log := s.log ++ [.deleted t n] } := by
  refine h.grow (List.Sublist.refl _) h.ids.deleteWhere ?_ (fun _ _ _ hr _ => hr) (by simp) (by simp) ?_ (by simp)
    (by simp)
  · intro r hr
    obtain ⟨hr, hid⟩ := mem_deleteWhere.mp hr
    obtain ⟨hdata, hvalue, hkey⟩ := readOk_now.mp (h.secrets r hr)
    refine ⟨hdata, ?_, hkey⟩
    rw [after, if_neg fun heq => hid (Prod.ext heq.1.symm heq.2.symm)]
    exact hvalue
  · exact fun t' names hj r hr => h.jobs (.shred t' names) hj r (mem_deleteWhere.mp hr).1

theorem Inv.shred (h : Inv s) {t : Id} {names : List String} (hnames : ∀ r ∈ s.secrets, r.tenant = t → r.name ∈ names) :
    Inv { s with
      secrets := deleteWhere (fun r => r.tenant = t ∧ r.name ∈ names) s.secrets
      keys := deleteWhere (fun r => r.tenant = t) s.keys
      log := s.log ++ [.shredded t] } := by
  have hsecrets : ∀ r ∈ deleteWhere (fun r => r.tenant = t ∧ r.name ∈ names) s.secrets,
      r ∈ s.secrets ∧ r.tenant ≠ t := by
    intro r hr
    obtain ⟨hr, hnot⟩ := mem_deleteWhere.mp hr
    exact ⟨hr, fun ht => hnot ⟨ht, hnames r hr ht⟩⟩
  refine h.grow List.filter_sublist h.ids.deleteWhere ?_ ?_ ?_ (by simp) ?_ (by simp) (by simp)
  · intro r hr
    obtain ⟨hr, ht⟩ := hsecrets r hr
    obtain ⟨hdata, hvalue, hkey⟩ := readOk_now.mp (h.secrets r hr)
    refine ⟨hdata, ?_, hkey.mono fun r' hr' ht' => mem_deleteWhere.mpr ⟨hr', fun heq => ht (ht' ▸ heq)⟩⟩
    rw [after, if_neg ht.symm]
    exact hvalue
  · rintro t' hne r hr rfl
    exact mem_deleteWhere.mpr ⟨hr, fun heq => hne (heq ▸ rfl)⟩
  · intro t' heq r hr
    rw [← Event.shredded.inj heq]
    exact (mem_deleteWhere.mp hr).2
  · exact fun t' names' hj r hr => h.jobs (.shred t' names') hj r (hsecrets r hr).1

theorem Inv.insertKey (h : Inv s) {t : Id} (hnone : ∀ r ∈ s.keys, r.tenant ≠ t) (version : ℕ) :
    Inv { s with keys := s.keys ++ [wrap t s.generated version], generated := s.generated + 1 } := by
  have hmem : ∀ r ∈ s.keys ++ [wrap t s.generated version], r ∈ s.keys ∨ r = wrap t s.generated version := by
    simp
  have hread : ∀ {t' n c i}, ReadOk s.keys s.log t' n c i →
      ReadOk (s.keys ++ [wrap t s.generated version]) s.log t' n c i := fun hread =>
    { hread with stored := fun hnot => (hread.stored hnot).mono fun _ hr _ => List.mem_append_left _ hr }
  have hfresh : ∀ r ∈ s.keys, r.wrapped.message ≠ s.generated := fun r hr => Nat.ne_of_lt (h.generated r hr)
  refine { h with
    tenants := ?_, wrapped := ?_, generated := ?_, distinct := ?_, secrets := fun r hr => hread (h.secrets r hr),
    puts := ?_, jobs := ?_, destroyed := ?_ }
  · exact keyed_append.mpr ⟨h.tenants, List.nodup_singleton _, by simpa [wrap] using hnone⟩
  · intro r hr
    rcases hmem r hr with hr | rfl
    · exact h.wrapped r hr
    · rfl
  · intro r hr
    rcases hmem r hr with hr | rfl
    · exact Nat.lt_succ_of_lt (h.generated r hr)
    · exact Nat.lt_succ_self _
  · exact keyed_append.mpr ⟨h.distinct, List.nodup_singleton _, by simpa [wrap] using hfresh⟩
  · intro t' n c hc
    obtain ⟨hlt, htenant⟩ := h.puts t' n c hc
    refine ⟨Nat.lt_succ_of_lt hlt, fun r hr hk => ?_⟩
    rcases hmem r hr with hr | rfl
    · exact htenant r hr hk
    · exact absurd hk.symm (Nat.ne_of_lt hlt)
  · intro j hj
    cases j with
    | readKey t' n c i => exact hread (h.jobs _ hj)
    | shred t' names => exact h.jobs (.shred t' names) hj
    | insertKey _ _ _ | rereadKey _ _ _ | write _ _ _ _ | rewrap _ _ _ | update _ _ _ _ _ => trivial
  · rintro k ⟨pre, t', post, hlog, n, c, hc, rfl⟩ r hr hk
    rcases hmem r hr with hr | rfl
    · exact h.destroyed _ ⟨pre, t', post, hlog, n, c, hc, rfl⟩ r hr hk
    · have hput : .put t' n c ∈ s.log := hlog ▸ List.mem_append_left _ hc
      exact absurd hk.symm (Nat.ne_of_lt (h.puts t' n c hput).1)

def KeyRow.pair (r : KeyRow) : Id × Key := (r.tenant, r.wrapped.message)

theorem pairs_rewrapped (version : ℕ) (done : List (Id × Key)) (keys : List KeyRow)
    (h : ∀ p ∈ done, ∀ r ∈ keys, r.tenant = p.1 → r.wrapped.message = p.2) :
    (rewrapped version done keys).map KeyRow.pair = keys.map KeyRow.pair ∧
      ((∀ r ∈ keys, r = wrap r.tenant r.wrapped.message r.version) →
        ∀ r ∈ rewrapped version done keys, r = wrap r.tenant r.wrapped.message r.version) := by
  induction done generalizing keys with
  | nil => exact ⟨rfl, id⟩
  | cons p done ih =>
    have hrow : ∀ r ∈ keys, r.tenant = p.1 → (wrap r.tenant p.2 version).pair = r.pair := by
      intro r hr ht
      rw [KeyRow.pair, KeyRow.pair, h p List.mem_cons_self r hr ht]
      rfl
    have hpairs : (updateWhere (fun r => r.tenant = p.1) (fun r => wrap r.tenant p.2 version) keys).map KeyRow.pair =
        keys.map KeyRow.pair := by
      rw [updateWhere, List.map_map]
      refine List.map_congr_left fun r hr => ?_
      rw [Function.comp_apply]
      split_ifs with ht
      · exact hrow r hr ht
      · rfl
    obtain ⟨hmap, hwrapped⟩ := ih (updateWhere (fun r => r.tenant = p.1) (fun r => wrap r.tenant p.2 version) keys) (by
      intro p' hp' r hr ht
      obtain ⟨r', hr', hpair⟩ := List.mem_map.mp (hpairs ▸ List.mem_map_of_mem hr : r.pair ∈ keys.map KeyRow.pair)
      obtain ⟨htenant, hmessage⟩ := Prod.mk.inj hpair
      rw [← hmessage]
      exact h p' (List.mem_cons_of_mem _ hp') r' hr' (htenant.trans ht))
    refine ⟨hmap.trans hpairs, fun hall => hwrapped fun r hr => ?_⟩
    obtain ⟨r', hr', rfl⟩ := mem_updateWhere.mp hr
    split_ifs with ht
    · rfl
    · exact hall r' hr'

theorem stored_iff {keys : List KeyRow} {t : Id} {k : Key} : Stored keys t k ↔ (t, k) ∈ keys.map KeyRow.pair := by
  rw [List.mem_map]
  refine exists_congr fun r => and_congr_right fun _ => ?_
  rw [KeyRow.pair, Prod.mk.injEq]

theorem Inv.rewrap (h : Inv s) {version : ℕ} {done : List (Id × Key)}
    (hdone : ∀ p ∈ done, ∀ r ∈ s.keys, r.tenant = p.1 → r.wrapped.message = p.2) :
    Inv { s with keys := rewrapped version done s.keys } := by
  obtain ⟨hpairs, hwrapped⟩ := pairs_rewrapped version done s.keys hdone
  have hkeyed : ∀ {α : Type} (f : Id × Key → α), Keyed (fun r => f r.pair) (rewrapped version done s.keys) ↔
      Keyed (fun r => f r.pair) s.keys := by
    intro α f
    have hf : ∀ keys : List KeyRow, keys.map (fun r => f r.pair) = (keys.map KeyRow.pair).map f := by simp
    rw [Keyed, Keyed, hf, hf, hpairs]
  have hold : ∀ r ∈ rewrapped version done s.keys, ∃ r' ∈ s.keys, r'.pair = r.pair := by
    intro r hr
    exact List.mem_map.mp (hpairs ▸ List.mem_map_of_mem hr)
  have hmessage : ∀ {P : Id → Key → Prop}, (∀ r ∈ s.keys, P r.tenant r.wrapped.message) →
      ∀ r ∈ rewrapped version done s.keys, P r.tenant r.wrapped.message := by
    intro P hP r hr
    obtain ⟨r', hr', hpair⟩ := hold r hr
    obtain ⟨ht, hk⟩ := Prod.mk.inj hpair
    rw [← ht, ← hk]
    exact hP r' hr'
  have hread : ∀ {t n c i}, ReadOk s.keys s.log t n c i → ReadOk (rewrapped version done s.keys) s.log t n c i :=
    fun hread => { hread with stored := fun hnot => stored_iff.mpr (hpairs ▸ stored_iff.mp (hread.stored hnot)) }
  refine { h with
    tenants := (hkeyed Prod.fst).mpr h.tenants, wrapped := hwrapped h.wrapped,
    generated := hmessage (P := fun _ k => k < s.generated) h.generated,
    distinct := (hkeyed Prod.snd).mpr h.distinct, secrets := fun r hr => hread (h.secrets r hr),
    puts := fun t n c hc => ⟨(h.puts t n c hc).1, ?_⟩, jobs := ?_, destroyed := fun k hk => ?_ }
  · exact hmessage (P := fun t' k => k = c.key → t' = t) (h.puts t n c hc).2
  · intro j hj
    cases j with
    | readKey t n c i => exact hread (h.jobs _ hj)
    | shred t names => exact h.jobs (.shred t names) hj
    | insertKey _ _ _ | rereadKey _ _ _ | write _ _ _ _ | rewrap _ _ _ | update _ _ _ _ _ => trivial
  · exact hmessage (P := fun _ k' => k' ≠ k) (h.destroyed k hk)

/-! ### Reading -/

theorem Inv.unwrap (h : Inv s) {masters : List ℕ} {r : KeyRow} (hr : r ∈ s.keys) :
    unwrap masters r = if r.version ∈ masters then some r.wrapped.message else none := by
  have hopened : opened r.version (aad ["tenant-key", r.tenant]) r.wrapped = some r.wrapped.message := by
    rw [h.wrapped r hr]
    exact opened_mk
  rw [Vault.unwrap, hopened]

theorem Inv.of_dataKey (h : Inv s) {t : Id} {k : Key} (hk : dataKey s t = .key k) : Stored s.keys t k := by
  unfold dataKey at hk
  split at hk
  · cases hk
  · next r hr =>
    split at hk
    · next k' hk' =>
      have hmem := mem_of_lookup hr
      rw [h.unwrap hmem] at hk'
      split_ifs at hk'
      exact ⟨r, hmem, key_of_lookup hr, (Option.some.inj hk').trans (Found.key.inj hk)⟩
    · cases hk

theorem Inv.unique (h : Inv s) {t : Id} {k k' : Key} (hk : Stored s.keys t k) (hk' : Stored s.keys t k') : k = k' := by
  obtain ⟨r, hr, rfl, rfl⟩ := hk
  obtain ⟨r', hr', ht, rfl⟩ := hk'
  rw [h.tenants.eq_of_key hr' hr ht]

theorem Inv.reading (h : Inv s) {t : Id} {n : String} {c : Ciphertext} {i : ℕ} (hread : ReadOk s.keys s.log t n c i)
    (hfits : (∃ r ∈ s.keys, r.tenant = t) → .shredded t ∉ s.log.drop i) :
    reading t n c (dataKey s t) = .raises ∨
      ∃ v, reading t n c (dataKey s t) = .value v ∧ (v = none ∨ v = lastPut t n (s.log.take i)) := by
  cases hfound : dataKey s t with
  | absent => exact Or.inr ⟨none, rfl, Or.inl rfl⟩
  | raises => exact Or.inl rfl
  | key k =>
    have hk := h.of_dataKey hfound
    obtain ⟨r, hr, ht, -⟩ := hk
    have hkey : c.key = k := h.unique (hread.stored (hfits ⟨r, hr, ht⟩)) (h.of_dataKey hfound)
    have hopened : opened k (aad ["secret", t, n]) c = some c.message := if_pos ⟨hkey, hread.data⟩
    refine Or.inr ⟨some c.message, ?_, Or.inr hread.value.symm⟩
    simp only [Vault.reading, hopened]

theorem Inv.dataKey_eq (h : Inv s) (hconf : Configured s) (t : Id) :
    dataKey s t =
      match lookup Prod.fst t (s.keys.map KeyRow.pair) with
      | none => .absent
      | some p => .key p.2 := by
  have hlookup : lookup Prod.fst t (s.keys.map KeyRow.pair) = (lookup KeyRow.tenant t s.keys).map KeyRow.pair :=
    lookup_map (n := id) Function.injective_id fun _ => rfl
  rw [hlookup]
  unfold dataKey
  cases hl : lookup KeyRow.tenant t s.keys with
  | none => rfl
  | some r =>
    have hmem := mem_of_lookup hl
    simp only [Option.map_some, h.unwrap hmem, if_pos (hconf r hmem)]
    rfl

/-! ### Runs -/

section Runs
variable {lower : String → String}

theorem Inv.eraseJob (h : Inv s) (job : ℕ) : Inv { s with jobs := s.jobs.eraseIdx job } :=
  h.withJobs fun j hj => h.jobs j (List.mem_of_mem_eraseIdx hj)

theorem not_shredding_erase {t : Id} {job : ℕ} (h : ¬ Shredding s t) :
    ¬ Shredding { s with jobs := s.jobs.eraseIdx job } t := by
  rintro ⟨j, hj, ht⟩
  exact h ⟨j, List.mem_of_mem_eraseIdx hj, ht⟩

theorem inv_goOn (h : Inv s) {job : ℕ} {j : Job} (hj : s.jobs[job]? = some j) (hfits : Fits s j) :
    Inv (goOn { s with jobs := s.jobs.eraseIdx job } j) := by
  have hok : JobOk s.keys s.secrets s.log j := h.jobs j (List.mem_of_getElem? hj)
  have h' := h.eraseJob job
  cases j with
  | insertKey t n v =>
    simp only [goOn]
    split_ifs
    · split
      · exact h'.withJob trivial
      · next hnone =>
        have hnone := lookup_eq_none.mp hnone
        refine (h'.insertKey hnone s.current).storeSecret (not_shredding_erase (hfits hnone)) ?_
        exact ⟨wrap t s.generated s.current, by simp, rfl, rfl⟩
    · exact h'
  | rereadKey t n v =>
    simp only [goOn]
    split
    · exact h'.withJob trivial
    · exact h'
  | write t n v k => exact h'.storeSecret (not_shredding_erase hfits.1) hfits.2
  | readKey t n c i =>
    simp only [goOn]
    obtain hraises | ⟨v, hvalue, hv⟩ := h'.reading hok hfits
    · rw [hraises]
      exact h'
    · rw [hvalue]
      exact h'.got hok.past hv
  | shred t names => exact h'.shred hok
  | rewrap version todo done =>
    cases todo with
    | nil => exact h'.rewrap hfits
    | cons t todo =>
      simp only [goOn]
      split
      · exact h'.withJob trivial
      · exact h'
  | update version t k todo done =>
    simp only [goOn]
    split_ifs
    · exact h'.withJob trivial
    · exact h'.withJob trivial

theorem inv_step (h : Inv s) {op : Op} (hop : Undisturbed s op) : Inv (step lower s op) := by
  cases op with
  | configure current masters => exact { h with }
  | putSecret t n v =>
    simp only [step]
    split_ifs
    · split
      · exact h.withJob trivial
      · exact h
      · exact h.withJob trivial
    · exact h
  | getSecret t n =>
    simp only [step]
    split
    · exact h.got (Nat.le_refl _) (Or.inl rfl)
    · next r hr =>
      have hread := h.secrets r (mem_of_lookup hr)
      have hid : r.id = (t, n) := key_of_lookup hr
      obtain ⟨ht, hn⟩ := Prod.mk.inj hid
      rw [ht, hn] at hread
      exact h.withJob hread
  | deleteSecret t n => exact h.deleteSecret t n
  | shredTenant t =>
    refine h.withJob fun r hr ht => ?_
    exact List.mem_map_of_mem (List.mem_filter.mpr ⟨hr, by simpa using ht⟩)
  | rewrapAll =>
    simp only [step]
    split_ifs
    · exact h.withJob trivial
    · exact h
  | goOn job =>
    simp only [step]
    cases hj : s.jobs[job]? with
    | none => exact h
    | some j => exact inv_goOn h hj (hop j hj)
  | drop job => exact h.eraseJob job

theorem peek_step (h : Inv s) {op : Op} (hop : Undisturbed s op) (hrewraps : Rewraps s op) (hconf : Configured s)
    (hconf' : Configured (step lower s op)) (t : Id) (n : String) : peek (step lower s op) t n = peek s t n := by
  have h' : Inv (step lower s op) := inv_step h hop
  obtain ⟨job, version, done, rfl, hj⟩ := hrewraps
  have hstep : step lower s (.goOn job) =
      { s with jobs := s.jobs.eraseIdx job, keys := rewrapped version done s.keys } := by
    simp only [step, hj, goOn]
  have hkey : dataKey (step lower s (.goOn job)) t = dataKey s t := by
    rw [h'.dataKey_eq hconf', h.dataKey_eq hconf, hstep]
    rw [(pairs_rewrapped version done s.keys (hop _ hj)).1]
  unfold peek
  rw [hkey, hstep]

/-- **What the vault keeps.** In a run in which no shredding comes between the statements of a call, no secret fails to
be decrypted, each is read as it was put last or not at all, no key outlives the shredding of its tenant, and
`rewrap_all` changes no value. -/
theorem safe_of_undisturbed (current : ℕ) (masters : List ℕ) (ops : List Op)
    (h : Along (step lower) Undisturbed { current, masters } ops) :
    Safe (run (step lower) { current, masters } ops) ∧
      Along (step lower) (fun s op => Rewraps s op → Configured s → Configured (step lower s op) →
        ∀ t n, peek (step lower s op) t n = peek s t n) { current, masters } ops := by
  have hstep : ∀ s op, Inv s → Undisturbed s op → Inv (step lower s op) := fun _ _ hs hop => inv_step hs hop
  refine ⟨(inv_run hstep (inv_start current masters) h).safe, ?_⟩
  exact along_of_inv hstep (fun s op hs hop hrewraps => peek_step hs hop hrewraps) (inv_start current masters) h

end Runs

def rotation : List Op :=
  [.putSecret "shop" "wa_token" "abc", .goOn 0, .getSecret "shop" "wa_token", .configure 2 [2, 1], .rewrapAll,
    .goOn 1, .goOn 1, .goOn 0, .goOn 0, .getSecret "shop" "wa_token", .goOn 0, .shredTenant "shop", .goOn 0]

theorem safe_rotation : Safe (run (step id) { current := 1, masters := [1] } rotation) ∧
    Along (step id) (fun s op => Rewraps s op → Configured s → Configured (step id s op) →
      ∀ t n, peek (step id s op) t n = peek s t n) { current := 1, masters := [1] } rotation :=
  safe_of_undisturbed 1 [1] rotation (by decide +kernel)

/-- A `put_secret` has read the key, when the shop is shredded; then it stores its secret, and another one makes a new
key. -/
def stranded : List Op :=
  [.putSecret "shop" "wa_token" "abc", .goOn 0, .putSecret "shop" "gmail_token" "def", .shredTenant "shop", .goOn 1,
    .goOn 0, .putSecret "shop" "wa_token" "ghi", .goOn 0, .getSecret "shop" "gmail_token", .goOn 0]

/-- The stranded secret fails to be decrypted. -/
theorem stranded_fails : ¬ Safe (run (step id) { current := 1, masters := [1] } stranded) := by
  intro h
  have hfailed : .failed "shop" "gmail_token" ∈ (run (step id) { current := 1, masters := [1] } stranded).log := by
    decide +kernel
  exact h.decrypts _ _ hfailed

end Smara.Server.Vault
