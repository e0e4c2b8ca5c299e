import Mathlib.Algebra.Order.BigOperators.Group.List
import Mathlib.Algebra.Order.Group.Nat
import Smara.Flow.Passes
import Smara.Lib.Acyclic

/-! # Exactly what is valid, and what an injection leaves

* `validate_exact`: a workflow is valid exactly when its dependencies exist and are acyclic, and then the
  order is topological.
* `injectNode_atomic_iff`: an injection is all or nothing exactly when it succeeds, or finds its id taken
  before it has changed the target. -/

namespace Smara.Flow.Validation

open Relation (TransGen ReflTransGen)
open Lib.Acyclic Lib.Table Flow.Schema Flow.Readiness Flow.Order Flow.Passes

variable {ρ : Type} {w : Workflow ρ} {order : List String} {id d : String}

/-! ### Valid graphs -/

def Known (w : Workflow ρ) : Prop := ∀ n ∈ w.nodes, ∀ d ∈ n.dependsOn, d ∈ w.ids

theorem dep_iff (hkeyed : Keyed DAGNode.id w.nodes) :
    Dep w d id ↔ ∃ n ∈ w.nodes, n.id = id ∧ d ∈ n.dependsOn := by
  constructor
  · rintro ⟨n, hn, hd⟩
    exact ⟨n, mem_of_node hn, key_of_lookup hn, hd⟩
  · rintro ⟨n, hn, rfl, hd⟩
    exact ⟨n, lookup_key hkeyed hn, hd⟩

theorem Known.dep (h : Known w) (hd : Dep w d id) : d ∈ w.ids := by
  obtain ⟨n, hn, hd⟩ := hd
  exact h n (mem_of_node hn) d hd

theorem mem_ids_of_dep (hd : Dep w d id) : id ∈ w.ids := by
  obtain ⟨n, hn, -⟩ := hd
  exact mem_ids_of_node hn

/-! ### Kahn's algorithm -/

theorem unknownDependency_eq_none : unknownDependency w = none ↔ Known w := by
  simp [unknownDependency, Known]

theorem exists_opens (hkeyed : Keyed DAGNode.id w.nodes) : ∃ rest order,
    kahn (adj w) (inDegree w) (((inDegree w).filter fun d => d.2 = 0).map Prod.fst) [] = (rest, order) ∧
      Opens w [] rest [] order := by
  have hopens := opens_kahn hkeyed (opens_start hkeyed)
  generalize kahn (adj w) (inDegree w) (((inDegree w).filter fun d => d.2 = 0).map Prod.fst) [] = r at hopens ⊢
  obtain ⟨rest, order⟩ := r
  exact ⟨rest, order, rfl, hopens⟩

theorem perm_of_opens {rest : Degrees} (h : Opens w [] rest [] order) (hlength : order.length = w.nodes.length) :
    order.Perm w.ids := by
  have hnodup : order.Nodup := by simpa using h.nodup
  have hsub : order ⊆ w.ids := fun x hx => h.known x (by simpa using hx)
  refine (hnodup.subperm hsub).perm_of_length_le ?_
  simp [hlength, Workflow.ids]

theorem length_of_acyclic (hkeyed : Keyed DAGNode.id w.nodes) (hknown : Known w) (hacyclic : Acyclic (Dep w))
    {rest : Degrees} (h : Opens w [] rest [] order) : order.length = w.nodes.length := by
  have hall : w.ids ⊆ order := by
    intro id hid
    by_contra hopen
    obtain ⟨a, ha, hout, hfirst⟩ := exists_first hacyclic (fun d _ hd => hknown.dep hd) (p := fun x => x ∉ order) hopen hid
    obtain ⟨n, hn, rfl⟩ := mem_ids.mp ha
    have hmissing : missing order n = 0 := by
      refine List.countP_eq_zero.mpr fun d hd => ?_
      simpa using hfirst d ((dep_iff hkeyed).mpr ⟨n, hn, rfl, hd⟩)
    have hmem := (h.queued n hn).mpr (by simpa using hmissing)
    exact hout (by simpa using hmem)
  have hnodup : order.Nodup := by simpa using h.nodup
  have hle := (hnodup.subperm fun x hx => h.known x (by simpa using hx)).length_le
  have hge := (List.Nodup.subperm hkeyed hall).length_le
  simp only [Workflow.ids, List.length_map] at hle hge
  omega

theorem acyclic_of_order (hkeyed : Keyed DAGNode.id w.nodes) (hvalid : validate w = .ok order) : Acyclic (Dep w) := by
  obtain ⟨rank, hrank⟩ := ranked_of_validate hkeyed hvalid
  refine acyclic_of_rank rank fun d id hd => ?_
  obtain ⟨n, hn, rfl, hmem⟩ := (dep_iff hkeyed).mp hd
  exact (hrank n hn d hmem).2

/-- **The three results of `validate`.** -/
theorem validate_cases (hkeyed : Keyed DAGNode.id w.nodes) :
    (¬ Known w ∧ ∃ n ∈ w.nodes, ∃ dep ∈ n.dependsOn, dep ∉ w.ids ∧ validate w = .error
      (.valueError ("Node '" ++ n.id ++ "' depends on non-existent node '" ++ dep ++ "'."))) ∨
    (Known w ∧ ¬ Acyclic (Dep w) ∧ ∃ remaining, validate w = .error (.cycleDetected remaining)) ∨
    (Known w ∧ Acyclic (Dep w) ∧ ∃ order, validate w = .ok order ∧ order.Perm w.ids ∧ Sorted w order) := by
  obtain ⟨rest, order, hkahn, hopens⟩ := exists_opens hkeyed
  cases hunknown : unknownDependency w with
  | some e =>
    obtain ⟨id, dep⟩ := e
    left
    refine ⟨fun h => by simp [unknownDependency_eq_none.mpr h] at hunknown, ?_⟩
    have hmem := List.mem_of_find?_eq_some hunknown
    have hmissing := List.find?_some hunknown
    simp only [List.mem_flatMap, List.mem_map, Prod.mk.injEq] at hmem
    obtain ⟨n, hn, dep, hd, rfl, rfl⟩ := hmem
    refine ⟨n, hn, dep, hd, by simpa using hmissing, ?_⟩
    unfold validate
    rw [hunknown]
  | none =>
    right
    have hknown := unknownDependency_eq_none.mp hunknown
    by_cases hlength : order.length = w.nodes.length
    · right
      have hvalid : validate w = .ok order := by
        unfold validate
        rw [hunknown]
        simp [hkahn, hlength]
      exact ⟨hknown, acyclic_of_order hkeyed hvalid, order, hvalid, perm_of_opens hopens hlength, hopens.sorted⟩
    · left
      refine ⟨hknown, fun h => hlength (length_of_acyclic hkeyed hknown h hopens), ?_⟩
      unfold validate
      rw [hunknown]
      simp [hkahn, hlength]

/-- **`validate` is exact**: it returns a list if and only if the dependencies exist and are acyclic; the
list has the nodes, each after all its dependencies. -/
theorem validate_exact (hkeyed : Keyed DAGNode.id w.nodes) :
    ((∃ order, validate w = .ok order) ↔ Known w ∧ Acyclic (Dep w)) ∧
    (∀ order, validate w = .ok order → order.Perm w.ids ∧ Sorted w order) ∧
    (∀ e, validate w = .error e →
      (∃ n ∈ w.nodes, ∃ dep ∈ n.dependsOn, dep ∉ w.ids ∧
        e = .valueError ("Node '" ++ n.id ++ "' depends on non-existent node '" ++ dep ++ "'.")) ∨
      (Known w ∧ ¬ Acyclic (Dep w) ∧ ∃ remaining, e = .cycleDetected remaining)) := by
  rcases validate_cases hkeyed with ⟨hunknown, n, hn, dep, hdep, hmissing, h⟩ | ⟨hknown, hcycle, remaining, h⟩ |
    ⟨hknown, hacyclic, order, h, hperm, hsorted⟩
  · refine ⟨⟨fun ⟨_, ho⟩ => by simp [h] at ho, fun hk => absurd hk.1 hunknown⟩, fun o ho => by simp [h] at ho, ?_⟩
    rintro e he
    obtain rfl : _ = e := Except.error.inj (h.symm.trans he)
    exact Or.inl ⟨n, hn, dep, hdep, hmissing, rfl⟩
  · refine ⟨⟨fun ⟨_, ho⟩ => by simp [h] at ho, fun hk => absurd hk.2 hcycle⟩, fun o ho => by simp [h] at ho, ?_⟩
    rintro e he
    obtain rfl : _ = e := Except.error.inj (h.symm.trans he)
    exact Or.inr ⟨hknown, hcycle, remaining, rfl⟩
  · refine ⟨⟨fun _ => ⟨hknown, hacyclic⟩, fun _ => ⟨order, h⟩⟩, fun o ho => ?_, fun e he => by simp [h] at he⟩
    obtain rfl : order = o := Except.ok.inj (h.symm.trans ho)
    exact ⟨hperm, hsorted⟩

def join : Workflow Unit := { nodes := [
  { id := "deploy", dependsOn := ["test", "build", "test"] }, { id := "test", dependsOn := ["build"] }, { id := "build" }] }

theorem validate_exact_join : validate join = .ok ["build", "test", "deploy"] ∧
    ["build", "test", "deploy"].Perm join.ids ∧ Sorted join ["build", "test", "deploy"] := by
  have hvalid : validate join = .ok ["build", "test", "deploy"] := by decide_cbv
  exact ⟨hvalid, (validate_exact (by decide)).2.1 _ hvalid⟩

/-! ### The target of an injection -/

theorem of_mem_given {x : String} (h : x ∈ given (some id)) : x = id :=
  (Option.some.inj (Option.mem_filter_iff.mp h).1).symm

/-- **The target keeps its dependencies**: it has the new id already, and nothing is taken from it but what
is put back. -/
def KeepsTarget (newId : String) (after : Option String) (deps : List String) : Prop :=
  (newId ∈ deps ∧ ∀ a ∈ given after, a ∉ deps) ∨
    (given after = some newId ∧ ∃ l, deps = l ++ [newId] ∧ newId ∉ l)

theorem append_erase_eq_iff {a newId : String} {deps : List String} (ha : a ∈ deps) :
    (if newId ∈ deps.erase a then deps.erase a else deps.erase a ++ [newId]) = deps ↔
      a = newId ∧ ∃ l, deps = l ++ [newId] ∧ newId ∉ l := by
  have hlength := List.length_erase_of_mem ha
  have hpos := List.length_pos_of_mem ha
  constructor
  · intro h
    split_ifs at h with hnew
    · rw [h] at hlength
      omega
    · have hcount : (deps.erase a).count a + [newId].count a = deps.count a := by rw [← List.count_append, h]
      have herase := List.count_erase_self (a := a) (l := deps)
      have hmem := List.count_pos_iff.mpr ha
      have hsame : a = newId := by
        by_contra hne
        have hnone : [newId].count a = 0 := List.count_eq_zero.mpr (by simpa using hne)
        omega
      subst hsame
      exact ⟨rfl, deps.erase a, h.symm, hnew⟩
  · rintro ⟨rfl, l, rfl, hl⟩
    have herase : (l ++ [a]).erase a = l := by simp [List.erase_append, hl]
    rw [herase, if_neg hl]

theorem retarget_eq_iff {newId : String} {after : Option String} {t : DAGNode ρ} :
    retarget newId after t = t ↔ KeepsTarget newId after t.dependsOn := by
  have heq : retarget newId after t = t ↔ (retarget newId after t).dependsOn = t.dependsOn := by
    constructor
    · intro h
      rw [h]
    · intro h
      simp only [retarget] at h ⊢
      rw [h]
  have happend : ∀ deps : List String, (if newId ∈ deps then deps else deps ++ [newId]) = deps ↔ newId ∈ deps := by
    intro deps
    split_ifs with h <;> simp [h]
  rw [heq]
  unfold retarget KeepsTarget
  cases given after with
  | none => simp [happend]
  | some a =>
    by_cases ha : a ∈ t.dependsOn
    · simp only [append_erase_eq_iff ha]
      simp [ha]
    · simp [List.erase_of_not_mem ha, happend, ha]
      rintro rfl l hl
      simp [hl]

theorem comesBefore_eq_iff {newId : String} {after before : Option String} :
    comesBefore newId after before w = w ↔
      ∀ id ∈ given before, ∀ t ∈ w.nodes, t.id = id → KeepsTarget newId after t.dependsOn := by
  unfold comesBefore
  cases given before with
  | none => simp
  | some id =>
    simp only [Option.mem_some_iff, forall_eq', ← retarget_eq_iff]
    have hnodes : w.upd id (retarget newId after) = w ↔
        updateWhere (fun n => n.id = id) (retarget newId after) w.nodes = w.nodes := by
      constructor
      · intro h
        exact congrArg Workflow.nodes h
      · intro h
        simp [Workflow.upd, h]
    rw [hnodes]
    conv_lhs => rhs; rw [← List.map_id w.nodes]
    rw [updateWhere, List.map_inj_left]
    refine forall₂_congr fun t _ => ?_
    by_cases hid : t.id = id <;> simp [hid]

/-! ### The graph after an injection -/

def injected (new : DAGNode ρ) (after before : Option String) (w : Workflow ρ) : Workflow ρ :=
  { comesBefore new.id after before w with
    nodes := (comesBefore new.id after before w).nodes ++ [comesAfter new after w] }

theorem mem_comesAfter {new : DAGNode ρ} {after : Option String} :
    d ∈ (comesAfter new after w).dependsOn ↔ d ∈ new.dependsOn ∨ (d ∈ given after ∧ d ∈ w.ids) := by
  unfold comesAfter
  cases given after with
  | none => simp
  | some a =>
    simp only [Option.mem_some_iff]
    by_cases ha : a ∈ w.ids ∧ a ∉ new.dependsOn
    · rw [if_pos ha]
      simp only [List.mem_append, List.mem_singleton]
      constructor
      · rintro (h | rfl)
        · exact Or.inl h
        · exact Or.inr ⟨rfl, ha.1⟩
      · rintro (h | ⟨rfl, -⟩)
        · exact Or.inl h
        · exact Or.inr rfl
    · rw [if_neg ha]
      constructor
      · exact Or.inl
      · rintro (h | ⟨rfl, hd⟩)
        · exact h
        · by_contra hd'
          exact ha ⟨hd, hd'⟩

section Injected
variable {new : DAGNode ρ} {after before : Option String}

theorem ids_injected : (injected new after before w).ids = w.ids ++ [new.id] := by
  have h : (comesBefore new.id after before w).ids = w.ids := ids_comesBefore
  unfold Workflow.ids at h ⊢
  simp [injected, h, comesAfter_id]

theorem keyed_injected (hkeyed : Keyed DAGNode.id w.nodes) (hfresh : new.id ∉ w.ids) :
    Keyed DAGNode.id (injected new after before w).nodes := by
  have h : (injected new after before w).ids = w.ids ++ [new.id] := ids_injected
  unfold Workflow.ids at h
  rw [Keyed, h]
  exact List.nodup_append.mpr ⟨hkeyed, by simp, by simpa [Workflow.ids] using hfresh⟩

theorem dep_of_dep_injected (hkeyed : Keyed DAGNode.id w.nodes) (hfresh : new.id ∉ w.ids) {a b : String}
    (h : Dep (injected new after before w) a b) :
    (b = new.id ∧ a ∈ (comesAfter new after w).dependsOn) ∨ Dep w a b ∨
      (a = new.id ∧ b ∈ given before ∧ b ∈ w.ids) := by
  obtain ⟨n, hn, rfl, ha⟩ := (dep_iff (keyed_injected hkeyed hfresh)).mp h
  rcases List.mem_append.mp hn with hn | hn
  · obtain ⟨m, hm, hid, -, hdeps⟩ := mem_comesBefore hn
    rcases hdeps a ha with ha | ⟨rfl, htarget⟩
    · exact Or.inr (Or.inl ((dep_iff hkeyed).mpr ⟨m, hm, hid, ha⟩))
    · exact Or.inr (Or.inr ⟨rfl, hid ▸ htarget, hid ▸ List.mem_map_of_mem hm⟩)
  · obtain rfl := List.mem_singleton.mp hn
    exact Or.inl ⟨comesAfter_id new after, ha⟩

theorem dep_injected_new (hkeyed : Keyed DAGNode.id w.nodes) (hfresh : new.id ∉ w.ids)
    (hd : d ∈ (comesAfter new after w).dependsOn) : Dep (injected new after before w) d new.id :=
  (dep_iff (keyed_injected hkeyed hfresh)).mpr
    ⟨comesAfter new after w, List.mem_append_right _ (by simp), comesAfter_id new after, hd⟩

theorem dep_injected_target (hkeyed : Keyed DAGNode.id w.nodes) (hfresh : new.id ∉ w.ids) (hid : id ∈ given before)
    (hmem : id ∈ w.ids) : Dep (injected new after before w) new.id id := by
  obtain ⟨t, ht, rfl⟩ := mem_ids.mp hmem
  refine (dep_iff (keyed_injected hkeyed hfresh)).mpr ⟨retarget new.id after t, List.mem_append_left _ ?_, rfl, ?_⟩
  · unfold comesBefore
    rw [Option.mem_def.mp hid]
    exact mem_updateWhere.mpr ⟨t, ht, by simp⟩
  · unfold retarget
    dsimp only
    split_ifs with h
    · exact h
    · simp

theorem dep_injected_of_ne (hkeyed : Keyed DAGNode.id w.nodes) (hfresh : new.id ∉ w.ids) {a b : String}
    (h : Dep w a b) (hb : b ∉ given before) : Dep (injected new after before w) a b := by
  obtain ⟨n, hn, rfl, ha⟩ := (dep_iff hkeyed).mp h
  refine (dep_iff (keyed_injected hkeyed hfresh)).mpr ⟨n, List.mem_append_left _ ?_, rfl, ha⟩
  unfold comesBefore
  cases hbefore : given before with
  | none => exact hn
  | some id =>
    rw [hbefore] at hb
    exact mem_updateWhere.mpr ⟨n, hn, if_neg fun hid => hb (Option.mem_some.mpr hid.symm)⟩

/-- **What may be injected**: a new id, whose dependencies are nodes that do not depend on the target. -/
def Insertable (new : DAGNode ρ) (after before : Option String) (w : Workflow ρ) : Prop :=
  new.id ∉ w.ids ∧ ∀ d, (d ∈ new.dependsOn ∨ (d ∈ given after ∧ d ∈ w.ids)) →
    d ∈ w.ids ∧ ∀ id ∈ given before, ¬ ReflTransGen (Dep w) id d

theorem acyclic_injected (hkeyed : Keyed DAGNode.id w.nodes) (hvalid : validate w = .ok order)
    (h : Insertable new after before w) : Acyclic (Dep (injected new after before w)) := by
  classical
  obtain ⟨rank, hrank⟩ := ranked_of_validate hkeyed hvalid
  have hlower : ∀ a b, Dep w a b → rank a < rank b := by
    intro a b hab
    obtain ⟨n, hn, rfl, ha⟩ := (dep_iff hkeyed).mp hab
    exact (hrank n hn a ha).2
  let top := (w.ids.map rank).sum + 1
  have htop : ∀ a ∈ w.ids, rank a < top := by
    intro a ha
    have hle : rank a ≤ (w.ids.map rank).sum := List.le_sum_of_mem (List.mem_map_of_mem ha)
    omega
  let above : String → Prop := fun a => ∃ id ∈ given before, ReflTransGen (Dep w) id a
  let level : String → ℕ := fun a => if a = new.id then top else if above a then top + 1 + rank a else rank a
  refine acyclic_of_rank level fun a b hab => ?_
  have hold : ∀ a ∈ w.ids, a ≠ new.id := fun a ha he => h.1 (he ▸ ha)
  rcases dep_of_dep_injected hkeyed h.1 hab with ⟨rfl, ha⟩ | hab | ⟨rfl, hb, hb'⟩
  · obtain ⟨ha, hbelow⟩ := h.2 a (mem_comesAfter.mp ha)
    have hnot : ¬ above a := fun ⟨id, hid, hpath⟩ => hbelow id hid hpath
    simp only [level, if_neg (hold a ha), if_neg hnot, if_true]
    exact htop a ha
  · have ha : a ∈ w.ids := by
      obtain ⟨n, hn, rfl, hmem⟩ := (dep_iff hkeyed).mp hab
      exact (hrank n hn a hmem).1
    have hb := mem_ids_of_dep hab
    have hlt := hlower a b hab
    have hup : above a → above b := fun ⟨id, hid, hpath⟩ => ⟨id, hid, hpath.tail hab⟩
    simp only [level, if_neg (hold a ha), if_neg (hold b hb)]
    split_ifs with h1 h2
    · omega
    · exact absurd (hup h1) h2
    · omega
    · omega
  · have habove : above b := ⟨b, hb, .refl⟩
    simp only [level, if_neg (hold b hb'), if_pos habove, if_true]
    omega

theorem path_injected (hkeyed : Keyed DAGNode.id w.nodes) (hacyclic : Acyclic (Dep w)) (hfresh : new.id ∉ w.ids)
    (hid : id ∈ given before) (h : ReflTransGen (Dep w) id d) :
    ReflTransGen (Dep (injected new after before w)) id d := by
  induction h with
  | refl => exact .refl
  | @tail b c hb hc ih =>
    have hne : c ≠ id := by
      rintro rfl
      exact hacyclic c (TransGen.tail' hb hc)
    refine ih.tail (dep_injected_of_ne hkeyed hfresh hc fun hmem => hne ?_)
    exact Option.some.inj ((Option.mem_def.mp hmem).symm.trans (Option.mem_def.mp hid))

/-- **The new graph is valid** exactly when the node may be injected. -/
theorem validate_injected_iff (hkeyed : Keyed DAGNode.id w.nodes) (hvalid : validate w = .ok order)
    (hfresh : new.id ∉ w.ids) : (∃ order, validate (injected new after before w) = .ok order) ↔
      Insertable new after before w := by
  obtain ⟨hknown, hacyclic⟩ := (validate_exact hkeyed).1.mp ⟨order, hvalid⟩
  rw [(validate_exact (keyed_injected hkeyed hfresh)).1]
  constructor
  · rintro ⟨hknown', hacyclic'⟩
    refine ⟨hfresh, fun d hd => ?_⟩
    have hdep : Dep (injected new after before w) d new.id :=
      dep_injected_new hkeyed hfresh (mem_comesAfter.mpr hd)
    have hmem : d ∈ w.ids := by
      have h := hknown'.dep hdep
      rw [ids_injected, List.mem_append, List.mem_singleton] at h
      refine h.resolve_right ?_
      rintro rfl
      exact hacyclic' _ (.single hdep)
    refine ⟨hmem, fun id hid hpath => ?_⟩
    have hids : id ∈ w.ids := by
      rcases ReflTransGen.cases_head hpath with rfl | ⟨c, hc, -⟩
      · exact hmem
      · exact hknown.dep hc
    have hback : ReflTransGen (Dep (injected new after before w)) id d :=
      path_injected hkeyed hacyclic hfresh hid hpath
    exact hacyclic' new.id ((TransGen.head' (dep_injected_target hkeyed hfresh hid hids) hback).tail hdep)
  · intro h
    refine ⟨fun n hn d hd => ?_, acyclic_injected hkeyed hvalid h⟩
    have hdep : Dep (injected new after before w) d n.id :=
      (dep_iff (keyed_injected hkeyed hfresh)).mpr ⟨n, hn, rfl, hd⟩
    rw [ids_injected, List.mem_append, List.mem_singleton]
    rcases dep_of_dep_injected hkeyed hfresh hdep with ⟨-, hd⟩ | hd | ⟨rfl, -⟩
    · exact Or.inl (h.2 d (mem_comesAfter.mp hd)).1
    · exact Or.inl (hknown.dep hd)
    · exact Or.inr rfl

end Injected

/-! ### All or nothing -/

/-- **All or nothing**: what raises leaves the workflow as it was, and what returns leaves a valid one. -/
def Atomic (new : DAGNode ρ) (after before : Option String) (w : Workflow ρ) : Prop :=
  match injectNode new after before w with
  | (w', .ok _) => ∃ order, validate w' = .ok order
  | (w', .error _) => w' = w

theorem injectNode_of_fresh {new : DAGNode ρ} {after before : Option String} (hfresh : new.id ∉ w.ids) :
    injectNode new after before w = match validate (injected new after before w) with
      | .error e => (injected new after before w, .error e)
      | .ok _ => updateNodeReadiness (injected new after before w) := by
  unfold injectNode addNode
  rw [comesAfter_id, ids_comesBefore, if_neg hfresh]
  rfl

theorem injectNode_of_taken {new : DAGNode ρ} {after before : Option String} (htaken : new.id ∈ w.ids) :
    injectNode new after before w = (comesBefore new.id after before w,
      .error (.valueError ("Node with id '" ++ new.id ++ "' already exists in workflow."))) := by
  unfold injectNode addNode
  rw [comesAfter_id, ids_comesBefore, if_pos htaken]
  rfl

/-- **When an injection is atomic**, in a valid workflow: the node may be injected, or its id is taken and
the target keeps its dependencies. -/
theorem injectNode_atomic_iff (hkeyed : Keyed DAGNode.id w.nodes) (hvalid : validate w = .ok order)
    (new : DAGNode ρ) (after before : Option String) :
    Atomic new after before w ↔ Insertable new after before w ∨
      (new.id ∈ w.ids ∧ ∀ id ∈ given before, ∀ t ∈ w.nodes, t.id = id →
        KeepsTarget new.id after t.dependsOn) := by
  by_cases hid : new.id ∈ w.ids
  · rw [Atomic, injectNode_of_taken hid, ← comesBefore_eq_iff]
    constructor
    · exact fun h => Or.inr ⟨hid, h⟩
    · rintro (h | h)
      · exact absurd hid h.1
      · exact h.2
  · rw [Atomic, injectNode_of_fresh hid]
    cases hafter : validate (injected new after before w) with
    | ok order' =>
      have hinsert := (validate_injected_iff hkeyed hvalid hid).mp ⟨order', hafter⟩
      have hknown := ((validate_exact (keyed_injected hkeyed hid)).1.mp ⟨order', hafter⟩).1
      obtain ⟨w', hw', hjudged⟩ := judged_updateNodeReadiness (keyed_injected hkeyed hid) fun d id hd => hknown.dep hd
      simp only [hw']
      exact iff_of_true ⟨order', (validate_congr hjudged.same.graph).trans hafter⟩ (Or.inl hinsert)
    | error e =>
      have hchanged : injected new after before w ≠ w := by
        intro h
        have hids := congrArg Workflow.ids h
        rw [ids_injected] at hids
        have hlength := congrArg List.length hids
        simp at hlength
      refine iff_of_false hchanged ?_
      rintro (h | h)
      · obtain ⟨order', ho⟩ := (validate_injected_iff hkeyed hvalid hid).mpr h
        simp [hafter] at ho
      · exact hid h.1

def pair : Workflow Unit := { nodes := [{ id := "build" }, { id := "deploy", dependsOn := ["build"] }] }

/-- A node that is injected between the two. -/
theorem injectNode_atomic_pair :
    (validate (injected { id := "test" } (some "build") (some "deploy") pair) = .ok ["build", "test", "deploy"]) ∧
      Atomic { id := "test" } (some "build") (some "deploy") pair := by
  have hvalid : validate pair = .ok ["build", "deploy"] := by decide_cbv
  refine ⟨by decide_cbv, (injectNode_atomic_iff (by decide) hvalid _ _ _).mpr (Or.inl ⟨by decide, ?_⟩)⟩
  intro d hd
  obtain rfl : d = "build" := by
    rcases hd with hd | ⟨hd, -⟩
    · exact absurd hd List.not_mem_nil
    · exact of_mem_given hd
  refine ⟨by decide, fun id hid hpath => ?_⟩
  obtain rfl : id = "deploy" := of_mem_given hid
  rcases ReflTransGen.cases_head hpath with h | ⟨c, ⟨n, hn, hmem⟩, -⟩
  · exact absurd h (by decide)
  · have hin := mem_of_node hn
    simp only [pair, List.mem_cons, List.not_mem_nil, or_false] at hin
    rcases hin with rfl | rfl
    · exact absurd hmem List.not_mem_nil
    · exact absurd hmem (by decide)

/-- **The injection of a node with an unknown dependency raises, and has put the node into the graph.** -/
theorem injectNode_partial : ¬ ∀ (w : Workflow Unit) (new : DAGNode Unit) (after before : Option String)
    (order : List String), Keyed DAGNode.id w.nodes → validate w = .ok order → Atomic new after before w := by
  intro h
  have hatomic := h pair { id := "test", dependsOn := ["missing"] } (some "build") (some "deploy")
    ["build", "deploy"] (by decide) (by decide_cbv)
  rw [Atomic, injectNode_of_fresh (by decide)] at hatomic
  have hraise : validate (injected { id := "test", dependsOn := ["missing"] } (some "build") (some "deploy") pair) =
      .error (.valueError "Node 'test' depends on non-existent node 'missing'.") := by decide
  rw [hraise] at hatomic
  have hlength := congrArg (fun w => w.nodes.length) hatomic
  exact absurd hlength (by decide)

end Smara.Flow.Validation
