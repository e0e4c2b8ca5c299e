import Mathlib.Order.Nat
import Smara.Lib.Table

/-! # The graph of a research

`ResearchGraph` keeps its nodes in a dictionary, in the order in which they were added. A node may only
depend on nodes that are there already, so the order of the nodes is one of their dependencies
(`Grown`).

* `add`, `resolve`, `expandContradiction`: what changes it.
* `acyclic_of_grown`: the dependencies have no cycle.
* `fromDict_toDict`: a graph that is read back has its nodes; the limit is not among what is written. -/

namespace Smara.Research.Graph

open Lib.Table

/-! ### The graph -/

inductive NodeState
  | unresolved | supported | refuted | blocked
  deriving DecidableEq

/-- What the operations raise. -/
inductive Err
  | valueError (message : String)
  | keyError (key : String)
  | researchStateError (message : String)
  /-- what the machine raises -/
  | raised (kind message : String)
  deriving DecidableEq

structure ResearchNode where
  id : String
  question : String
  dependencies : List String := []
  state : NodeState := .unresolved
  evidenceIds : List String := []
  stoppingCriterion : String := "one directly supporting fetched passage"
  deriving DecidableEq

structure ResearchGraph where
  maxNodes : ℕ := 64
  nodes : List ResearchNode := []
  deriving DecidableEq

/-- The keys of a dictionary of nodes. -/
def ids (nodes : List ResearchNode) : List String := nodes.map ResearchNode.id

def ResearchGraph.node (id : String) (g : ResearchGraph) : Option ResearchNode :=
  lookup ResearchNode.id id g.nodes

def dependenciesOf (nodes : List ResearchNode) (key : String) : List String :=
  ((lookup ResearchNode.id key nodes).map ResearchNode.dependencies).getD []

/-- `visit`: whether it finds a cycle, and what it has visited. The depth is bounded, as no key is being
visited twice. -/
def visit (nodes : List ResearchNode) :
    ℕ → List String → List String → String → Bool × List String
  | 0, _, visited, _ => (true, visited)
  | depth + 1, visiting, visited, key =>
    if key ∈ visiting then (true, visited)
    else if key ∈ visited then (false, visited)
    else
      let found := (dependenciesOf nodes key).foldl
        (fun r dep => if r.1 then r else visit nodes depth (key :: visiting) r.2 dep) (false, visited)
      if found.1 then found else (false, key :: found.2)

def cycle (nodes : List ResearchNode) : Bool :=
  ((ids nodes).foldl (fun r key => if r.1 then r else visit nodes (nodes.length + 1) [] r.2 key)
    (false, [])).1

namespace ResearchGraph

def add (node : ResearchNode) (g : ResearchGraph) : Except Err ResearchGraph :=
  if node.id ∈ ids g.nodes then .error (.valueError "duplicate research node")
  else if g.maxNodes ≤ g.nodes.length then .error (.valueError "research expansion limit reached")
  else if node.id ∈ node.dependencies then .error (.valueError "self dependency")
  else if ∃ d ∈ node.dependencies, d ∉ ids g.nodes then .error (.valueError "unknown dependencies")
  else if cycle (g.nodes ++ [node]) then .error (.valueError "research dependency cycle")
  else .ok { g with nodes := g.nodes ++ [node] }

def ready (g : ResearchGraph) : List ResearchNode :=
  g.nodes.filter fun n => n.state = .unresolved ∧
    ∀ d ∈ n.dependencies, (g.node d).map ResearchNode.state = some .supported

def settle (state : NodeState) (evidenceIds : List String) (n : ResearchNode) : ResearchNode :=
  { n with state, evidenceIds := evidenceIds.eraseDups }

def resolve (nodeId : String) (state : NodeState) (evidenceIds : List String) (g : ResearchGraph) :
    Except Err ResearchGraph :=
  if state = .unresolved then .error (.valueError "unresolved")
  else
    match g.node nodeId with
    | none => .error (.keyError nodeId)
    | some _ =>
      .ok { g with nodes := updateWhere (fun n => n.id = nodeId) (settle state evidenceIds) g.nodes }

def conflictId (sha : String → String) (nodeId question : String) : String :=
  "conflict-" ++ String.ofList ((sha (nodeId ++ ":" ++ question)).toList.take 16)

def expandContradiction (sha : String → String) (nodeId question : String) (g : ResearchGraph) :
    Except Err ResearchGraph :=
  match g.node nodeId with
  | none => .error (.keyError nodeId)
  | some n =>
    if n.state ≠ .supported ∧ n.state ≠ .refuted then
      .error (.valueError "contradiction expansion requires evaluated evidence")
    else if conflictId sha nodeId question ∈ ids g.nodes then .ok g
    else
      add { id := conflictId sha nodeId question, question := question
            stoppingCriterion := "resolve contradiction for " ++ nodeId } g

/-- `to_dict`: the nodes. -/
def toDict (g : ResearchGraph) : List ResearchNode := g.nodes

/-- The loop of `from_dict`. -/
def addAll : List ResearchNode → ResearchGraph → Except Err ResearchGraph
  | [], g => .ok g
  | n :: nodes, g =>
    match add n g with
    | .error e => .error e
    | .ok g => addAll nodes g

def fromDict (nodes : List ResearchNode) : Except Err ResearchGraph :=
  addAll nodes { maxNodes := max 64 nodes.length }

end ResearchGraph

/-! ### Grown graphs -/

/-- Every node was added when its dependencies were there. -/
inductive Grown : List ResearchNode → Prop
  | nil : Grown []
  | add {nodes : List ResearchNode} {n : ResearchNode} (h : Grown nodes) (hid : n.id ∉ ids nodes)
      (hdeps : ∀ d ∈ n.dependencies, d ∈ ids nodes) : Grown (nodes ++ [n])

/-- A key depends on another. -/
def DependsOn (nodes : List ResearchNode) (a b : String) : Prop :=
  ∃ n ∈ nodes, n.id = a ∧ b ∈ n.dependencies

variable {nodes : List ResearchNode} {n : ResearchNode} {g g' : ResearchGraph}

theorem mem_ids {id : String} : id ∈ ids nodes ↔ ∃ n ∈ nodes, n.id = id := List.mem_map

theorem ids_append (nodes : List ResearchNode) (n : ResearchNode) : ids (nodes ++ [n]) = ids nodes ++ [n.id] := by
  simp [ids]

theorem keyed_of_grown (h : Grown nodes) : Keyed ResearchNode.id nodes := by
  induction h with
  | nil => exact List.nodup_nil
  | add h hid hdeps ih =>
    refine keyed_append.mpr ⟨ih, List.nodup_singleton _, fun m hm n' hn' heq => ?_⟩
    rw [List.mem_singleton.mp hn'] at heq
    exact hid (mem_ids.mpr ⟨m, hm, heq⟩)

theorem exists_of_grown (h : Grown nodes) : ∀ n ∈ nodes, ∀ d ∈ n.dependencies, d ∈ ids nodes := by
  induction h with
  | nil => exact fun n hn => absurd hn List.not_mem_nil
  | add h hid hdeps ih =>
    intro n hn d hd
    rw [ids_append]
    rcases List.mem_append.mp hn with hn | hn
    · exact List.mem_append_left _ (ih n hn d hd)
    · rw [List.mem_singleton.mp hn] at hd
      exact List.mem_append_left _ (hdeps d hd)

/-- **The order of the nodes is one of their dependencies.** -/
theorem rank_of_grown (h : Grown nodes) : ∃ rank : String → ℕ,
    (∀ id ∈ ids nodes, rank id < nodes.length) ∧
      ∀ n ∈ nodes, ∀ d ∈ n.dependencies, rank d < rank n.id := by
  induction h with
  | nil => exact ⟨fun _ => 0, fun _ hid => absurd hid List.not_mem_nil, fun _ hn => absurd hn List.not_mem_nil⟩
  | @add nodes n h hid hdeps ih =>
    obtain ⟨rank, hlt, hdown⟩ := ih
    have hold : ∀ id ∈ ids nodes, (if id = n.id then nodes.length else rank id) = rank id := by
      intro id hmem
      rw [if_neg]
      rintro rfl
      exact hid hmem
    refine ⟨fun id => if id = n.id then nodes.length else rank id, fun id hmem => ?_, fun m hm d hd => ?_⟩
    · rw [List.length_append, List.length_singleton]
      rw [ids_append] at hmem
      beta_reduce
      rcases List.mem_append.mp hmem with hmem | hmem
      · rw [hold id hmem]
        have hrank := hlt id hmem
        omega
      · rw [if_pos (List.mem_singleton.mp hmem)]
        omega
    · beta_reduce
      rcases List.mem_append.mp hm with hm | hm
      · rw [hold m.id (mem_ids.mpr ⟨m, hm, rfl⟩), hold d (exists_of_grown h m hm d hd)]
        exact hdown m hm d hd
      · rw [List.mem_singleton.mp hm] at hd ⊢
        rw [if_pos rfl, hold d (hdeps d hd)]
        exact hlt d (hdeps d hd)

/-- **The dependencies of a grown graph have no cycle.** -/
theorem acyclic_of_grown (h : Grown nodes) (id : String) :
    ¬ Relation.TransGen (DependsOn nodes) id id := by
  obtain ⟨rank, -, hdown⟩ := rank_of_grown h
  have hless : ∀ {a b}, Relation.TransGen (DependsOn nodes) a b → rank b < rank a := by
    intro a b hab
    induction hab with
    | single h =>
      obtain ⟨n, hn, rfl, hd⟩ := h
      exact hdown n hn _ hd
    | tail _ h ih =>
      obtain ⟨n, hn, rfl, hd⟩ := h
      exact (hdown n hn _ hd).trans ih
  exact fun hcycle => lt_irrefl _ (hless hcycle)

/-! ### The search for a cycle -/

theorem foldl_visit {f : List String → String → Bool × List String} {keys visited : List String}
    (h : ∀ key ∈ keys, ∀ visited, (f visited key).1 = false) :
    (keys.foldl (fun r key => if r.1 then r else f r.2 key) (false, visited)).1 = false := by
  induction keys generalizing visited with
  | nil => rfl
  | cons key keys ih =>
    have hkey := h key List.mem_cons_self visited
    rw [List.foldl_cons]
    simp only [Bool.false_eq_true, if_false]
    rw [show f visited key = (false, (f visited key).2) from Prod.ext hkey rfl]
    exact ih fun key' hkey' => h key' (List.mem_cons_of_mem _ hkey')

theorem visit_of_rank {rank : String → ℕ}
    (hdown : ∀ n ∈ nodes, ∀ d ∈ n.dependencies, rank d < rank n.id) {depth : ℕ} {visiting : List String}
    {key : String} (hdepth : rank key < depth) (hvisiting : ∀ v ∈ visiting, rank key < rank v)
    (visited : List String) : (visit nodes depth visiting visited key).1 = false := by
  induction depth generalizing visiting visited key with
  | zero => omega
  | succ depth ih =>
    unfold visit
    have hnew : key ∉ visiting := fun h => lt_irrefl _ (hvisiting key h)
    rw [if_neg hnew]
    by_cases hvisited : key ∈ visited
    · rw [if_pos hvisited]
    rw [if_neg hvisited]
    have hnone : ((dependenciesOf nodes key).foldl
        (fun r dep => if r.1 then r else visit nodes depth (key :: visiting) r.2 dep)
        (false, visited)).1 = false := by
      refine foldl_visit fun d hd visited => ?_
      have hless : rank d < rank key := by
        unfold dependenciesOf at hd
        cases hl : lookup ResearchNode.id key nodes with
        | none =>
          rw [hl] at hd
          exact absurd hd List.not_mem_nil
        | some n =>
          rw [hl] at hd
          rw [← key_of_lookup hl]
          exact hdown n (mem_of_lookup hl) d hd
      refine ih (by omega) (fun v hv => ?_) visited
      rcases List.mem_cons.mp hv with rfl | hv
      · exact hless
      · exact hless.trans (hvisiting v hv)
    simp only
    rw [hnone]
    rfl

theorem cycle_of_grown (h : Grown nodes) : cycle nodes = false := by
  obtain ⟨rank, hlt, hdown⟩ := rank_of_grown h
  refine foldl_visit fun key hkey visited => visit_of_rank hdown ?_ (fun _ hv => absurd hv List.not_mem_nil) visited
  exact (hlt key hkey).trans (Nat.lt_succ_self _)

/-! ### What the operations keep -/

theorem add_eq_ok (h : g.add n = .ok g') : g' = { g with nodes := g.nodes ++ [n] } ∧
    g.nodes.length < g.maxNodes ∧ n.id ∉ ids g.nodes ∧ ∀ d ∈ n.dependencies, d ∈ ids g.nodes := by
  unfold ResearchGraph.add at h
  split_ifs at h with hid hmax hself hunknown hcycle
  push Not at hunknown
  exact ⟨(Except.ok.inj h).symm, not_le.mp hmax, hid, hunknown⟩

theorem add_of_grown (h : Grown g.nodes) (hroom : g.nodes.length < g.maxNodes) (hid : n.id ∉ ids g.nodes)
    (hdeps : ∀ d ∈ n.dependencies, d ∈ ids g.nodes) :
    g.add n = .ok { g with nodes := g.nodes ++ [n] } := by
  have hself : n.id ∉ n.dependencies := fun h => hid (hdeps _ h)
  have hknown : ¬ ∃ d ∈ n.dependencies, d ∉ ids g.nodes := by
    push Not
    exact hdeps
  unfold ResearchGraph.add
  rw [if_neg hid, if_neg (not_le.mpr hroom), if_neg hself, if_neg hknown,
    cycle_of_grown (Grown.add h hid hdeps)]
  rfl

theorem grown_add (h : Grown g.nodes) (hadd : g.add n = .ok g') : Grown g'.nodes := by
  obtain ⟨rfl, -, hid, hdeps⟩ := add_eq_ok hadd
  exact Grown.add h hid hdeps

theorem grown_map (h : Grown nodes) {f : ResearchNode → ResearchNode} (hid : ∀ n, (f n).id = n.id)
    (hdeps : ∀ n, (f n).dependencies = n.dependencies) : Grown (nodes.map f) := by
  have hids : ∀ nodes : List ResearchNode, ids (nodes.map f) = ids nodes := by
    intro nodes
    unfold ids
    rw [List.map_map]
    exact List.map_congr_left fun n _ => hid n
  induction h with
  | nil => exact Grown.nil
  | @add nodes n h hnew hd ih =>
    rw [List.map_append, List.map_singleton]
    refine Grown.add ih ?_ ?_
    · rw [hids, hid]
      exact hnew
    · rw [hids, hdeps]
      exact hd

theorem resolve_eq_ok {nodeId : String} {state : NodeState} {evidenceIds : List String}
    (h : g.resolve nodeId state evidenceIds = .ok g') :
    g' = { g with
      nodes := updateWhere (fun n => n.id = nodeId) (ResearchGraph.settle state evidenceIds) g.nodes } := by
  unfold ResearchGraph.resolve at h
  split_ifs at h
  cases hnode : g.node nodeId with
  | none =>
    rw [hnode] at h
    cases h
  | some n =>
    rw [hnode] at h
    exact (Except.ok.inj h).symm

theorem resolve_of_node {nodeId : String} {state : NodeState} {evidenceIds : List String}
    (hnode : g.node nodeId = some n) (hstate : state ≠ .unresolved) :
    g.resolve nodeId state evidenceIds = .ok { g with
      nodes := updateWhere (fun n => n.id = nodeId) (ResearchGraph.settle state evidenceIds) g.nodes } := by
  unfold ResearchGraph.resolve
  rw [if_neg hstate, hnode]

theorem ids_settle {nodeId : String} {state : NodeState} {evidenceIds : List String} :
    ids (updateWhere (fun n => n.id = nodeId) (ResearchGraph.settle state evidenceIds) nodes) = ids nodes :=
  map_updateWhere fun _ _ => rfl

theorem lookup_settle {nodeId : String} {state : NodeState} {evidenceIds : List String}
    (hnode : g.node nodeId = some n) :
    lookup ResearchNode.id nodeId (updateWhere (fun n => n.id = nodeId)
      (ResearchGraph.settle state evidenceIds) g.nodes) = some (ResearchGraph.settle state evidenceIds n) := by
  unfold ResearchGraph.node at hnode
  rw [lookup_updateWhere (f := ResearchGraph.settle state evidenceIds) fun _ _ => rfl, hnode, Option.map_some, if_pos (key_of_lookup hnode)]

section Expand
variable {sha : String → String} {nodeId question : String}

theorem expand_of_room (h : Grown g.nodes) (hnode : g.node nodeId = some n)
    (hstate : n.state = .supported ∨ n.state = .refuted)
    (hid : ResearchGraph.conflictId sha nodeId question ∉ ids g.nodes)
    (hroom : g.nodes.length < g.maxNodes) :
    ∃ m, g.expandContradiction sha nodeId question = .ok { g with nodes := g.nodes ++ [m] } := by
  have hevaluated : ¬ (n.state ≠ .supported ∧ n.state ≠ .refuted) := by
    rintro ⟨hs, hr⟩
    exact hstate.elim hs hr
  unfold ResearchGraph.expandContradiction
  rw [hnode]
  simp only
  rw [if_neg hevaluated, if_neg hid]
  exact ⟨_, add_of_grown h hroom hid fun d hd => absurd hd List.not_mem_nil⟩

theorem grown_settle {state : NodeState} {evidenceIds : List String} (h : Grown nodes) :
    Grown (updateWhere (fun n => n.id = nodeId) (ResearchGraph.settle state evidenceIds) nodes) := by
  refine grown_map h (fun n => ?_) fun n => ?_
  · split_ifs <;> rfl
  · split_ifs <;> rfl

theorem refute_and_expand (h : Grown g.nodes) (hmem : nodeId ∈ ids g.nodes) (evidenceIds : List String)
    (hid : ResearchGraph.conflictId sha nodeId question ∉ ids g.nodes)
    (hroom : g.nodes.length < g.maxNodes) :
    ∃ g₁ g₂, g.resolve nodeId .refuted evidenceIds = .ok g₁ ∧
      g₁.expandContradiction sha nodeId question = .ok g₂ ∧ g₂.nodes.length = g.nodes.length + 1 := by
  obtain ⟨n, hn, hkey⟩ := mem_ids.mp hmem
  have hnode : g.node nodeId = some n := (lookup_eq_some_iff (keyed_of_grown h)).mpr ⟨hn, hkey⟩
  let g₁ : ResearchGraph := { g with
    nodes := updateWhere (fun n => n.id = nodeId) (ResearchGraph.settle .refuted evidenceIds) g.nodes }
  have hids : ids g₁.nodes = ids g.nodes := ids_settle
  have hlength : g₁.nodes.length = g.nodes.length := length_updateWhere
  obtain ⟨m, hm⟩ := expand_of_room (g := g₁) (n := ResearchGraph.settle .refuted evidenceIds n)
    (grown_settle h) (lookup_settle hnode) (Or.inr rfl) (hids.symm ▸ hid) (hlength.symm ▸ hroom)
  refine ⟨g₁, _, resolve_of_node hnode (by decide), hm, ?_⟩
  rw [List.length_append, hlength, List.length_singleton]

theorem expand_of_known (hid : ResearchGraph.conflictId sha nodeId question ∈ ids g.nodes)
    (hexpand : g.expandContradiction sha nodeId question = .ok g') : g' = g := by
  unfold ResearchGraph.expandContradiction at hexpand
  cases hnode : g.node nodeId with
  | none =>
    rw [hnode] at hexpand
    cases hexpand
  | some n =>
    rw [hnode] at hexpand
    simp only at hexpand
    split_ifs at hexpand
    exact (Except.ok.inj hexpand).symm

end Expand

theorem grown_expand (h : Grown g.nodes) {sha : String → String} {nodeId question : String}
    (hexpand : g.expandContradiction sha nodeId question = .ok g') :
    Grown g'.nodes ∧ g'.maxNodes = g.maxNodes ∧ (g'.nodes.length = g.nodes.length ∨
      g'.nodes.length = g.nodes.length + 1 ∧ g.nodes.length < g.maxNodes) := by
  unfold ResearchGraph.expandContradiction at hexpand
  cases hnode : g.node nodeId with
  | none =>
    rw [hnode] at hexpand
    cases hexpand
  | some n =>
    rw [hnode] at hexpand
    simp only at hexpand
    split_ifs at hexpand with hstate hknown
    · obtain rfl := Except.ok.inj hexpand
      exact ⟨h, rfl, Or.inl rfl⟩
    · have hgrown := grown_add h hexpand
      obtain ⟨rfl, hroom, -, -⟩ := add_eq_ok hexpand
      exact ⟨hgrown, rfl, Or.inr ⟨List.length_append, hroom⟩⟩

/-! ### The round trip -/

theorem addAll_append (nodes : List ResearchNode) (n : ResearchNode) (g : ResearchGraph) :
    ResearchGraph.addAll (nodes ++ [n]) g = match ResearchGraph.addAll nodes g with
      | .error e => .error e
      | .ok g => g.add n := by
  induction nodes generalizing g with
  | nil =>
    unfold ResearchGraph.addAll
    simp only [List.nil_append]
    unfold ResearchGraph.addAll
    cases g.add n <;> rfl
  | cons m nodes ih =>
    rw [List.cons_append]
    unfold ResearchGraph.addAll
    cases g.add m with
    | error e => rfl
    | ok g' => exact ih g'

theorem nodes_of_addAll {nodes : List ResearchNode} (h : ResearchGraph.addAll nodes g = .ok g') :
    g'.nodes = g.nodes ++ nodes := by
  induction nodes generalizing g with
  | nil =>
    rw [← Except.ok.inj h, List.append_nil]
  | cons n nodes ih =>
    unfold ResearchGraph.addAll at h
    cases hn : g.add n with
    | error e =>
      rw [hn] at h
      cases h
    | ok g'' =>
      rw [hn] at h
      obtain ⟨rfl, -⟩ := add_eq_ok hn
      rw [ih h, List.append_assoc, List.singleton_append]

theorem addAll_of_grown (h : Grown nodes) {limit : ℕ} (hlimit : nodes.length ≤ limit) :
    ResearchGraph.addAll nodes { maxNodes := limit } = .ok { maxNodes := limit, nodes := nodes } := by
  induction h with
  | nil => rfl
  | @add nodes n h hid hdeps ih =>
    rw [List.length_append, List.length_singleton] at hlimit
    rw [addAll_append, ih (by omega)]
    exact add_of_grown (g := { maxNodes := limit, nodes := nodes }) h hlimit hid hdeps

/-- **A graph that is read back** has its nodes, and a limit of its own. -/
theorem fromDict_toDict (h : Grown g.nodes) :
    ResearchGraph.fromDict g.toDict = .ok { g with maxNodes := max 64 g.nodes.length } :=
  addAll_of_grown h (le_max_right 64 g.nodes.length)

end Smara.Research.Graph
