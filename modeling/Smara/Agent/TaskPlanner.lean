import Mathlib
import Smara.Lib.Each
import Smara.Lib.Forest
import Smara.Lib.Machine
import Smara.Lib.PyText

/-! # The task planner

`SmaraTaskPlanner` keeps the check list of an agent. `write` replaces or merges items, drops the parents that
are no items and cuts the loops; `restore` takes a snapshot back as it is. `format_for_injection` renders the
active items, and reaches them through the roots only. After every call the check list is in order
(`InOrder`) exactly when every snapshot restored is one that `_sanitize_parents` would leave alone
(`inOrder_iff`). -/

namespace Smara.Agent.TaskPlanner

open Relation (TransGen)
open Lib.Acyclic (Acyclic)
open Lib.PyText (Value strip)
open Lib.Each Lib.Machine
open Lib

/-! ## Items -/

def maxTodoContentChars : ℕ := 4000

def maxTodoItems : ℕ := 256

def truncationMarker : String := "… [truncated]"

def todoInjectionHeader : String := "[Active Task List Preserved Across Compaction]"

/-- `VALID_STATUSES` -/
inductive Status
  | pending | inProgress | completed | cancelled
  deriving DecidableEq, Repr

def Status.text : Status → String
  | pending => "pending"
  | inProgress => "in_progress"
  | completed => "completed"
  | cancelled => "cancelled"

def Status.marker : Status → String
  | completed => "[x]"
  | inProgress => "[>]"
  | pending => "[ ]"
  | cancelled => "[~]"

def Status.active (s : Status) : Bool := s == pending || s == inProgress

/-- The status that a text names, after `strip` and `lower`. No other letter than those of ASCII has a letter
of a status in lower case. -/
def statusOf (text : String) : Option Status :=
  [Status.pending, .inProgress, .completed, .cancelled].find? (·.text = (strip text).toLower)

abbrev Id := { s : String // s ≠ "" }

/-- `str(...).strip()` as an id, if anything is left. -/
def idOf (text : String) : Option Id :=
  if h : strip text ≠ "" then some ⟨strip text, h⟩ else none

/-- A dictionary given by the caller. -/
structure Todo where
  id : Option Value := none
  content : Option Value := none
  status : Option Value := none
  parent : Option Value := none
  deriving DecidableEq, Repr

/-- An item of the check list; one without a parent lacks the key. -/
structure Item where
  id : Id
  content : String
  status : Status
  parent : Option Id
  deriving DecidableEq

/-- `str(item.get("id", "")).strip()` -/
def Todo.givenId (t : Todo) : Option Id := idOf ((t.id.map Value.text).getD "")

/-- `str(item.get("id", "")).strip() or "?"` -/
def Todo.key (t : Todo) : Id := t.givenId.getD ⟨"?", by decide⟩

/-- `str(item.get("parent") or "").strip()` -/
def Todo.givenParent (t : Todo) : Option Id :=
  (t.parent.filter Value.truth).bind fun v => idOf v.text

def capContent (content : String) : String :=
  if maxTodoContentChars < content.length then
    String.ofList (content.toList.take (maxTodoContentChars - truncationMarker.length)) ++ truncationMarker
  else content

/-- `_validate`, of a dictionary -/
def validate (t : Todo) : Item where
  id := t.key
  content :=
    let content := strip ((t.content.map Value.text).getD "")
    if content = "" then "(no description)" else capContent content
  status := (statusOf ((t.status.map Value.text).getD "pending")).getD .pending
  parent := t.givenParent.filter (· ≠ t.key)

/-- `_dedupe_by_id`: the last of each id, in the order of the last ones -/
def dedupeById (todos : List Todo) : List Todo := todos.pwFilter fun a b => a.key ≠ b.key

/-- `_normalize_order`: a flat list has its first item in progress before the pending ones. -/
def normalizeOrder (items : List Item) : List Item :=
  if items.any (·.parent.isSome) then items
  else match items.findIdx? (·.status = .inProgress) with
    | none => items
    | some active => match (items.take active).findIdx? (·.status = .pending) with
      | none => items
      | some pending =>
        match items[active]? with
        | none => items
        | some item => (items.eraseIdx active).insertIdx pending item

/-! ## Parents -/

/-- `item.pop("parent", None)` -/
def Item.pop (item : Item) : Item := { item with parent := none }

/-- The first loop of `_sanitize_parents`: parents that are no items are dropped. -/
def dropUnknown (items : List Item) : List Item :=
  items.map fun item => if item.parent.any (· ∉ items.map Item.id) then item.pop else item

def byId (items : List Item) (id : Id) : Option Item := items.reverse.find? (·.id = id)

theorem byId_some {items : List Item} {id : Id} {item : Item} (h : byId items id = some item) :
    item ∈ items ∧ item.id = id := by
  have hmem := List.mem_reverse.mp (List.mem_of_find?_eq_some h)
  have hid := List.find?_some h
  exact ⟨hmem, by simpa using hid⟩

theorem walk_decreases {items : List Item} {seen : List Id} {p : Id} {next : Item} (hp : p ∉ seen)
    (h : byId items p = some next) : (items.filter (·.id ∉ p :: seen)).length <
      (items.filter (·.id ∉ seen)).length := by
  obtain ⟨hmem, hid⟩ := byId_some h
  have hsub : (items.filter (·.id ∉ p :: seen)).Sublist (items.filter (·.id ∉ seen)) := by
    refine List.monotone_filter_right items fun x hx => ?_
    simp only [List.mem_cons, not_or, decide_eq_true_eq] at hx ⊢
    exact hx.2
  refine lt_of_le_of_ne hsub.length_le fun heq => ?_
  have hnext : next ∈ items.filter (·.id ∉ seen) := List.mem_filter.mpr ⟨hmem, by simpa [hid] using hp⟩
  rw [← hsub.eq_of_length heq] at hnext
  simp [hid] at hnext

/-- The inner loop of `_sanitize_parents`: do the parents of `node` come back to one seen? The first loop has
made every parent an item. -/
def walk (items : List Item) (seen : List Id) (node : Item) : Bool :=
  match node.parent with
  | none => false
  | some p =>
    if p ∈ seen then true
    else match _hnext : byId items p with
      | none => false
      | some next => walk items (p :: seen) next
termination_by (items.filter (·.id ∉ seen)).length
decreasing_by exact walk_decreases ‹_› ‹_›

def loops (items : List Item) (id : Id) : Bool := (byId items id).any fun item => walk items [item.id] item

def popAt (items : List Item) (id : Id) : List Item := items.map fun x => if x.id = id then x.pop else x

/-- One turn of the second loop of `_sanitize_parents` -/
def cutLoop (items : List Item) (id : Id) : List Item := if loops items id then popAt items id else items

def sanitizeParents (items : List Item) : List Item :=
  (items.map Item.id).foldl cutLoop (dropUnknown items)

/-! ## The check list -/

/-- What the merge makes of an item that is there. -/
def update (t : Todo) (item : Item) : Item where
  id := item.id
  content := match t.content.filter Value.truth with
    | some v => capContent (strip v.text)
    | none => item.content
  status := ((t.status.filter Value.truth).bind fun v => statusOf v.text).getD item.status
  parent := if t.parent.isSome then t.givenParent else item.parent

/-- One turn of the merge loop; ids are unique, so that the item found is the only one. -/
def mergeOne (items : List Item) (t : Todo) : List Item :=
  match t.givenId with
  | none => items
  | some id =>
    if id ∈ items.map Item.id then items.map fun x => if x.id = id then update t x else x
    else items ++ [validate t]

def rebuild (seen : List Id) : List Item → List Item
  | [] => []
  | x :: xs => if x.id ∈ seen then rebuild seen xs else x :: rebuild (x.id :: seen) xs

/-- What `write` makes of the items. -/
def writeItems (items : List Item) (todos : List Todo) (merge : Bool) : List Item :=
  let written :=
    if merge then normalizeOrder (rebuild [] ((dedupeById todos).foldl mergeOne items))
    else normalizeOrder ((dedupeById todos).map validate)
  sanitizeParents (written.take maxTodoItems)

/-- What `restore` takes for the items. -/
def restoreItems (todos : List Todo) : List Item :=
  (normalizeOrder ((dedupeById todos).map validate)).take maxTodoItems

/-! ## Unique ids -/

@[simp] theorem validate_id (t : Todo) : (validate t).id = t.key := rfl

@[simp] theorem ids_dropUnknown (items : List Item) : (dropUnknown items).map Item.id = items.map Item.id := by
  rw [dropUnknown, List.map_map]
  refine List.map_congr_left fun x _ => ?_
  simp only [Function.comp_apply]
  split_ifs <;> rfl

@[simp] theorem ids_popAt (items : List Item) (id : Id) : (popAt items id).map Item.id = items.map Item.id := by
  rw [popAt, List.map_map]
  refine List.map_congr_left fun x _ => ?_
  simp only [Function.comp_apply]
  split_ifs <;> rfl

@[simp] theorem ids_cutLoop (items : List Item) (id : Id) :
    (cutLoop items id).map Item.id = items.map Item.id := by
  unfold cutLoop
  split_ifs
  · exact ids_popAt items id
  · rfl

theorem ids_cutLoops (ids : List Id) (items : List Item) :
    (ids.foldl cutLoop items).map Item.id = items.map Item.id := by
  induction ids generalizing items with
  | nil => rfl
  | cons id ids ih => rw [List.foldl_cons, ih, ids_cutLoop]

@[simp] theorem ids_sanitizeParents (items : List Item) :
    (sanitizeParents items).map Item.id = items.map Item.id := by
  rw [sanitizeParents, ids_cutLoops, ids_dropUnknown]

theorem normalizeOrder_perm (items : List Item) : (normalizeOrder items).Perm items := by
  unfold normalizeOrder
  split_ifs
  · rfl
  · split
    · rfl
    · rename_i active hactive
      split
      · rfl
      · rename_i pending hpending
        split
        · rfl
        · rename_i item hitem
          obtain ⟨hlt, rfl⟩ := List.getElem?_eq_some_iff.mp hitem
          have hle : pending ≤ (items.eraseIdx active).length := by
            have := (List.findIdx?_eq_some_iff_findIdx_eq.mp hpending).1
            rw [List.length_take] at this
            rw [List.length_eraseIdx_of_lt hlt]
            omega
          exact (List.perm_insertIdx _ _ hle).trans (List.getElem_cons_eraseIdx_perm hlt)

theorem nodup_validated (todos : List Todo) : (((dedupeById todos).map validate).map Item.id).Nodup := by
  have hkeys : (dedupeById todos).Pairwise fun a b => a.key ≠ b.key := List.pairwise_pwFilter todos
  rw [List.Nodup, List.pairwise_map, List.pairwise_map]
  simpa only [validate_id] using hkeys

theorem nodup_rebuild (seen : List Id) (items : List Item) :
    ((rebuild seen items).map Item.id).Nodup ∧ ∀ x ∈ rebuild seen items, x.id ∉ seen := by
  induction items generalizing seen with
  | nil => simp [rebuild]
  | cons x xs ih =>
    rw [rebuild]
    split_ifs with hx
    · exact ih seen
    · obtain ⟨hnodup, hnew⟩ := ih (x.id :: seen)
      constructor
      · refine List.nodup_cons.mpr ⟨fun hmem => ?_, hnodup⟩
        obtain ⟨y, hy, hid⟩ := List.mem_map.mp hmem
        exact hnew y hy (by simp [hid])
      · intro y hy
        rcases List.mem_cons.mp hy with rfl | hy
        · exact hx
        · exact fun hseen => hnew y hy (List.mem_cons_of_mem _ hseen)

theorem nodup_kept {items : List Item} (h : (items.map Item.id).Nodup) :
    (((normalizeOrder items).take maxTodoItems).map Item.id).Nodup := by
  have hnodup := ((normalizeOrder_perm items).map Item.id).nodup_iff.mpr h
  exact hnodup.sublist ((List.take_sublist _ _).map _)

theorem nodup_writeItems (items : List Item) (todos : List Todo) (merge : Bool) :
    ((writeItems items todos merge).map Item.id).Nodup := by
  rw [writeItems, ids_sanitizeParents]
  cases merge with
  | true => exact nodup_kept (nodup_rebuild [] _).1
  | false => exact nodup_kept (nodup_validated todos)

theorem nodup_restoreItems (todos : List Todo) : ((restoreItems todos).map Item.id).Nodup :=
  nodup_kept (nodup_validated todos)

/-- `SmaraTaskPlanner`: the items, whose ids are unique, and the revision -/
structure Planner where
  items : List Item
  unique : (items.map Item.id).Nodup
  revision : ℕ

def Planner.init : Planner := ⟨[], List.nodup_nil, 0⟩

def Planner.write (self : Planner) (todos : List Todo) (merge : Bool) : Planner where
  items := writeItems self.items todos merge
  unique := nodup_writeItems self.items todos merge
  revision := if writeItems self.items todos merge = self.items then self.revision else self.revision + 1

def Planner.restore (todos : List Todo) (revision : ℤ) : Planner :=
  ⟨restoreItems todos, nodup_restoreItems todos, revision.toNat⟩

/-! ## Rendering -/

def line (depth : ℕ) (item : Item) : String :=
  String.join (List.replicate depth "  ") ++ "- " ++ item.status.marker ++ " " ++ item.id.1 ++ ". " ++
    item.content ++ " (" ++ item.status.text ++ ")"

/-- `children.get(id, [])` -/
def children (items : List Item) (id : Id) : List Item := items.filter (·.parent = some id)

def roots (items : List Item) : List Item := items.filter (·.parent.isNone)

/-- `render`: whether the item is kept, and its lines; nothing where `fuel` calls within each other do not
suffice. -/
def render (items : List Item) : ℕ → Item → ℕ → Option (Bool × List String)
  | 0, _, _ => none
  | fuel + 1, item, depth => do
    let kids ← (children items item.id).mapM fun kid => render items fuel kid (depth + 1)
    let keep := item.status.active || kids.any Prod.fst
    return (keep, if keep then line depth item :: kids.flatMap Prod.snd else [])

def formatForInjection (items : List Item) : Option (Option String) :=
  if items = [] then some none
  else do
    let rendered ← (roots items).mapM fun item => render items items.length item 0
    let lines := todoInjectionHeader :: rendered.flatMap Prod.snd
    return if lines.length = 1 then none else some ("\n".intercalate lines)

/-! ## What the sanitisation gives -/

abbrev Known (items : List Item) : Prop := Forest.Known Item.id Item.parent items

/-- `a` is the parent of `b`. -/
abbrev Parent (items : List Item) : Id → Id → Prop := Forest.Parent Item.id Item.parent items

abbrev At (items : List Item) : Id → ℕ → Prop := Forest.At Item.id Item.parent items

theorem byId_isSome {items : List Item} {id : Id} (h : id ∈ items.map Item.id) : ∃ item, byId items id = some item := by
  obtain ⟨x, hx, hid⟩ := List.mem_map.mp h
  have hfound : (byId items id).isSome := by
    rw [byId, List.find?_isSome]
    exact ⟨x, List.mem_reverse.mpr hx, by simpa using hid⟩
  exact Option.isSome_iff_exists.mp hfound

theorem known_dropUnknown (items : List Item) : Known (dropUnknown items) := by
  intro x hx p hup
  rw [ids_dropUnknown]
  obtain ⟨y, hy, rfl⟩ := List.mem_map.mp hx
  split_ifs at hup with hany
  · cases hup
  · by_contra hp
    exact hany (by rw [hup]; simpa only [Option.any_some, decide_eq_true_eq] using hp)

theorem known_popAt {items : List Item} (h : Known items) (id : Id) : Known (popAt items id) := by
  intro x hx p hup
  rw [ids_popAt]
  obtain ⟨y, hy, rfl⟩ := List.mem_map.mp hx
  split_ifs at hup
  · cases hup
  · exact h y hy p hup

theorem known_cutLoop {items : List Item} (h : Known items) (id : Id) : Known (cutLoop items id) := by
  unfold cutLoop
  split_ifs
  · exact known_popAt h id
  · exact h

theorem at_popAt {items : List Item} {k : Id} {n : ℕ} (h : At items k n) (id : Id) :
    ∃ m, At (popAt items id) k m := by
  induction h with
  | @root x k hx hk hup =>
    refine ⟨0, .root (List.mem_map_of_mem hx) ?_ ?_⟩
    · split_ifs <;> exact hk
    · split_ifs
      · rfl
      · exact hup
  | @child x k p n hx hk hup _ ih =>
    obtain ⟨m, hp⟩ := ih
    by_cases hid : x.id = id
    · refine ⟨0, .root (List.mem_map_of_mem hx) ?_ ?_⟩
      · rw [if_pos hid]
        exact hk
      · rw [if_pos hid]
        rfl
    · refine ⟨m + 1, .child (List.mem_map_of_mem hx) ?_ ?_ hp⟩
      · rw [if_neg hid]
        exact hk
      · rw [if_neg hid]
        exact hup

theorem at_cutLoop {items : List Item} {k : Id} {n : ℕ} (h : At items k n) (id : Id) :
    ∃ m, At (cutLoop items id) k m := by
  unfold cutLoop
  split_ifs
  · exact at_popAt h id
  · exact ⟨n, h⟩

theorem walk_seen {items : List Item} {seen : List Id} {node : Item} {p : Id} (hup : node.parent = some p)
    (hp : p ∈ seen) : walk items seen node = true := by
  rw [walk, hup]
  exact if_pos hp

theorem walk_next {items : List Item} {seen : List Id} {node next : Item} {p : Id} (hup : node.parent = some p)
    (hp : p ∉ seen) (hnext : byId items p = some next) :
    walk items seen node = walk items (p :: seen) next := by
  rw [walk, hup]
  simp only [hp, if_false]
  split
  · rename_i hnone
    rw [hnext] at hnone
    cases hnone
  · rename_i hsome
    rw [hnext] at hsome
    cases hsome
    rfl

theorem at_of_walk {items : List Item} (hknown : Known items) {seen : List Id} {node : Item}
    (h : walk items seen node = false) (hnode : node ∈ items) : ∃ n, At items node.id n := by
  induction seen, node using walk.induct items with
  | case1 seen node hup => exact ⟨0, .root hnode rfl hup⟩
  | case2 seen node p hup hp =>
    rw [walk_seen hup hp] at h
    cases h
  | case3 seen node p hup hp hnone =>
    obtain ⟨next, hnext⟩ := byId_isSome (hknown node hnode p hup)
    rw [hnone] at hnext
    cases hnext
  | case4 seen node p hup hp next hnext ih =>
    obtain ⟨hmem, rfl⟩ := byId_some hnext
    rw [walk_next hup hp hnext] at h
    obtain ⟨n, hp⟩ := ih h hmem
    exact ⟨n + 1, .child hnode rfl hup hp⟩

theorem at_cutLoop_self {items : List Item} (hknown : Known items) {id : Id} (h : id ∈ items.map Item.id) :
    ∃ n, At (cutLoop items id) id n := by
  obtain ⟨item, hitem⟩ := byId_isSome h
  obtain ⟨hmem, hid⟩ := byId_some hitem
  unfold cutLoop
  split_ifs with hloops
  · exact ⟨0, .root (List.mem_map_of_mem hmem) (by rw [if_pos hid]; exact hid) (by rw [if_pos hid]; rfl)⟩
  · rw [loops, hitem, Option.any_some, Bool.not_eq_true] at hloops
    rw [← hid]
    exact at_of_walk hknown hloops hmem

theorem at_cutLoops (ids : List Id) {items : List Item} (hknown : Known items) (hids : ids ⊆ items.map Item.id)
    {k : Id} (h : k ∈ ids ∨ ∃ n, At items k n) : ∃ n, At (ids.foldl cutLoop items) k n := by
  induction ids generalizing items with
  | nil => exact h.resolve_left List.not_mem_nil
  | cons id ids ih =>
    obtain ⟨hid, hids⟩ := List.cons_subset.mp hids
    refine ih (known_cutLoop hknown id) (by rwa [ids_cutLoop]) ?_
    rcases h with hk | ⟨n, hat⟩
    · rcases List.mem_cons.mp hk with rfl | hk
      · exact Or.inr (at_cutLoop_self hknown hid)
      · exact Or.inl hk
    · exact Or.inr (at_cutLoop hat id)

theorem grounded_sanitizeParents (items : List Item) :
    Forest.Grounded Item.id Item.parent (sanitizeParents items) := by
  intro x hx
  have hid : x.id ∈ items.map Item.id := by
    rw [← ids_sanitizeParents]
    exact List.mem_map_of_mem hx
  exact at_cutLoops _ (known_dropUnknown items) (by simp) (Or.inl hid)

theorem dropUnknown_eq_self {items : List Item} (h : Known items) : dropUnknown items = items := by
  have heach : ∀ x ∈ items, (if x.parent.any (· ∉ items.map Item.id) then x.pop else x) = x := by
    intro x hx
    refine if_neg fun hany => ?_
    obtain ⟨p, hup, hp⟩ := Option.any_eq_true _ _ |>.mp hany
    exact (of_decide_eq_true hp) (h x hx p hup)
  rw [dropUnknown, List.map_congr_left heach, List.map_id']

theorem walk_eq_false {items : List Item} (hacyclic : Acyclic (Parent items)) {seen : List Id} {node : Item}
    (hnode : node ∈ items) (hseen : ∀ s ∈ seen, s = node.id ∨ TransGen (Parent items) node.id s) :
    walk items seen node = false := by
  induction seen, node using walk.induct items with
  | case1 seen node hup => rw [walk, hup]
  | case2 seen node p hup hp =>
    have hparent : Parent items p node.id := ⟨node, hnode, rfl, hup⟩
    rcases hseen p hp with rfl | hbelow
    · exact absurd (.single hparent) (hacyclic node.id)
    · exact absurd (hbelow.tail hparent) (hacyclic node.id)
  | case3 seen node p hup hp hnone =>
    rw [walk, hup]
    simp only [hp, if_false]
    split
    · rfl
    · rename_i hsome
      rw [hnone] at hsome
      cases hsome
  | case4 seen node p hup hp next hnext ih =>
    obtain ⟨hmem, rfl⟩ := byId_some hnext
    have hparent : Parent items next.id node.id := ⟨node, hnode, rfl, hup⟩
    rw [walk_next hup hp hnext]
    refine ih hmem fun s hs => ?_
    rcases List.mem_cons.mp hs with rfl | hs
    · exact Or.inl rfl
    · rcases hseen s hs with rfl | hbelow
      · exact Or.inr (.single hparent)
      · exact Or.inr (.head hparent hbelow)

theorem cutLoop_eq_self {items : List Item} (hacyclic : Acyclic (Parent items)) (id : Id) :
    cutLoop items id = items := by
  refine if_neg fun hloops => ?_
  obtain ⟨item, hitem, hwalk⟩ := Option.any_eq_true _ _ |>.mp hloops
  rw [walk_eq_false hacyclic (byId_some hitem).1 (by simp)] at hwalk
  cases hwalk

theorem sanitizeParents_eq_self {items : List Item} (hknown : Known items) (hacyclic : Acyclic (Parent items)) :
    sanitizeParents items = items := by
  rw [sanitizeParents, dropUnknown_eq_self hknown]
  induction items.map Item.id with
  | nil => rfl
  | cons id ids ih => rw [List.foldl_cons, cutLoop_eq_self hacyclic, ih]

/-- **The sanitisation** leaves alone just the lists whose parents are items and acyclic. -/
theorem sanitizeParents_eq_self_iff {items : List Item} (hunique : (items.map Item.id).Nodup) :
    sanitizeParents items = items ↔ Known items ∧ Acyclic (Parent items) := by
  constructor
  · intro h
    have hgrounded := grounded_sanitizeParents items
    rw [h] at hgrounded
    exact (Forest.grounded_iff hunique).mp hgrounded
  · rintro ⟨hknown, hacyclic⟩
    exact sanitizeParents_eq_self hknown hacyclic

/-! ## What the rendering shows -/

theorem mem_children {items : List Item} {id : Id} {kid : Item} :
    kid ∈ children items id ↔ kid ∈ items ∧ kid.parent = some id := by simp [children]

theorem render_succ {items : List Item} {fuel : ℕ} {item : Item} {depth : ℕ} {result : Bool × List String} :
    render items (fuel + 1) item depth = some result ↔
      ∃ kids, ((children items item.id).mapM fun kid => render items fuel kid (depth + 1)) = some kids ∧
        result.1 = (item.status.active || kids.any Prod.fst) ∧
        result.2 = if result.1 then line depth item :: kids.flatMap Prod.snd else [] := by
  rw [render]
  constructor
  · intro h
    obtain ⟨kids, hkids, h⟩ := Option.bind_eq_some_iff.mp h
    obtain rfl := Option.some.inj h
    exact ⟨kids, hkids, rfl, rfl⟩
  · rintro ⟨kids, hkids, hkeep, hlines⟩
    rw [hkids]
    refine congrArg some (Prod.ext hkeep.symm ?_)
    rw [hlines, hkeep]

theorem render_total {items : List Item} (hunique : (items.map Item.id).Nodup) {fuel n : ℕ} {item : Item}
    (hitem : item ∈ items) (hat : At items item.id n) (hfuel : items.length ≤ fuel + n) (depth : ℕ) :
    ∃ result, render items fuel item depth = some result := by
  induction fuel generalizing item n depth with
  | zero =>
    have := hat.lt_length hunique
    omega
  | succ fuel ih =>
    have hkids : ∀ kid ∈ children items item.id, ∃ result, render items fuel kid (depth + 1) = some result := by
      intro kid hkid
      obtain ⟨hmem, hup⟩ := mem_children.mp hkid
      exact ih hmem (.child hmem rfl hup hat) (by omega) (depth + 1)
    obtain ⟨kids, hkids⟩ := mapM_isSome hkids
    rw [render, hkids]
    exact ⟨_, rfl⟩

theorem rendered_at {items : List Item} (hunique : (items.map Item.id).Nodup) {rendered : List (Bool × List String)}
    (h : ((roots items).mapM fun item => render items items.length item 0) = some rendered) {item : Item} {n : ℕ}
    (hitem : item ∈ items) (hat : At items item.id n) : ∃ fuel result, render items fuel item n = some result ∧
      result.2 ⊆ rendered.flatMap Prod.snd := by
  generalize hk : item.id = k at hat
  induction hat generalizing item with
  | root hx hkx hup =>
    obtain rfl := List.inj_on_of_nodup_map hunique hitem hx (hk.trans hkx.symm)
    have hroot : item ∈ roots items := by simp [roots, hitem, hup]
    obtain ⟨result, hmem, hresult⟩ := mem_mapM h hroot
    exact ⟨_, result, hresult, fun l hl => List.mem_flatMap.mpr ⟨result, hmem, hl⟩⟩
  | child hx hkx hup hp ih =>
    obtain rfl := List.inj_on_of_nodup_map hunique hitem hx (hk.trans hkx.symm)
    obtain ⟨parent, hparent, rfl⟩ := List.mem_map.mp hp.mem
    obtain ⟨fuel, above, habove, hsub⟩ := ih hparent rfl
    cases fuel with
    | zero => cases habove
    | succ fuel =>
      obtain ⟨kids, hkids, hkeep, hlines⟩ := render_succ.mp habove
      obtain ⟨result, hmem, hresult⟩ := mem_mapM hkids (mem_children.mpr ⟨hitem, hup⟩)
      refine ⟨fuel, result, hresult, fun l hl => hsub ?_⟩
      cases fuel with
      | zero => cases hresult
      | succ fuel =>
        -- lines below are kept only with a kid that is kept, and that keeps the parent
        obtain ⟨grandkids, -, -, hown⟩ := render_succ.mp hresult
        cases hkept : result.1 with
        | false => simp [hown, hkept] at hl
        | true =>
          have habovekept : above.1 = true := by
            rw [hkeep, Bool.or_eq_true, List.any_eq_true]
            exact Or.inr ⟨result, hmem, hkept⟩
          rw [hlines, habovekept, if_pos rfl]
          exact List.mem_cons_of_mem _ (List.mem_flatMap.mpr ⟨result, hmem, hl⟩)

def HasLine (text line : String) : Prop :=
  ∃ before after, text = "\n".intercalate (before ++ line :: after)

theorem formatForInjection_shows {items : List Item} (hunique : (items.map Item.id).Nodup)
    (hgrounded : Forest.Grounded Item.id Item.parent items) {item : Item} (hitem : item ∈ items)
    (hactive : item.status.active) :
    ∃ text depth, formatForInjection items = some (some text) ∧ HasLine text (line depth item) := by
  have hroots : ∀ root ∈ roots items, ∃ result, render items items.length root 0 = some result := by
    intro root hroot
    obtain ⟨hmem, hup⟩ := List.mem_filter.mp hroot
    have hat : At items root.id 0 := .root hmem rfl (Option.isNone_iff_eq_none.mp hup)
    exact render_total hunique hmem hat le_rfl 0
  obtain ⟨rendered, hrendered⟩ := mapM_isSome hroots
  obtain ⟨n, hat⟩ := hgrounded item hitem
  obtain ⟨fuel, result, hresult, hsub⟩ := rendered_at hunique hrendered hitem hat
  have hline : line n item ∈ rendered.flatMap Prod.snd := by
    cases fuel with
    | zero => cases hresult
    | succ fuel =>
      obtain ⟨kids, -, hkeep, hlines⟩ := render_succ.mp hresult
      rw [hactive, Bool.true_or] at hkeep
      rw [hkeep, if_pos rfl] at hlines
      exact hsub (hlines ▸ List.mem_cons_self)
  obtain ⟨before, after, hsplit⟩ := List.append_of_mem hline
  refine ⟨_, n, ?_, todoInjectionHeader :: before, after, rfl⟩
  have hsome : items ≠ [] := List.ne_nil_of_mem hitem
  have hmore : (todoInjectionHeader :: (before ++ line n item :: after)).length ≠ 1 := by simp
  rw [formatForInjection, if_neg hsome, hrendered]
  simp only [Option.bind_eq_bind, Option.bind_some, hsplit]
  rw [if_neg hmore]
  rfl

/-! ## Runs -/

/-- What holds of a check list that loses nothing. -/
structure InOrder (p : Planner) : Prop where
  unique : (p.items.map Item.id).Nodup
  known : Known p.items
  acyclic : Acyclic (Parent p.items)
  shown : ∀ item ∈ p.items, item.status.active →
    ∃ text depth, formatForInjection p.items = some (some text) ∧ HasLine text (line depth item)

/-- The calls of the planner. -/
inductive Op
  | write (todos : List Todo) (merge : Bool)
  | restore (todos : List Todo) (revision : ℤ)

/-- The planner after a call. -/
def step (p : Planner) : Op → Planner
  | .write todos merge => p.write todos merge
  | .restore todos revision => .restore todos revision

/-- A snapshot restored is one that `_sanitize_parents` leaves alone. -/
def Op.Sound : Op → Prop
  | .write _ _ => True
  | .restore todos _ => sanitizeParents (restoreItems todos) = restoreItems todos

theorem inOrder_of_grounded {p : Planner} (h : Forest.Grounded Item.id Item.parent p.items) : InOrder p := by
  obtain ⟨hknown, hacyclic⟩ := (Forest.grounded_iff p.unique).mp h
  exact ⟨p.unique, hknown, hacyclic, fun item hitem hactive => formatForInjection_shows p.unique h hitem hactive⟩

theorem inOrder_step_iff (p : Planner) (op : Op) : InOrder (step p op) ↔ op.Sound := by
  cases op with
  | write todos merge =>
    refine iff_of_true (inOrder_of_grounded ?_) trivial
    exact grounded_sanitizeParents _
  | restore todos revision =>
    show InOrder (.restore todos revision) ↔ sanitizeParents (restoreItems todos) = restoreItems todos
    rw [sanitizeParents_eq_self_iff (nodup_restoreItems todos)]
    constructor
    · intro h
      exact ⟨h.known, h.acyclic⟩
    · intro h
      exact inOrder_of_grounded ((Forest.grounded_iff (nodup_restoreItems todos)).mpr h)

/-- **Task plans.** Every state of a run is in order exactly when every snapshot that the run restores is one
that `_sanitize_parents` leaves alone. -/
theorem inOrder_iff (ops : List Op) :
    (∀ pre post, ops = pre ++ post → InOrder (run step .init pre)) ↔ ∀ op ∈ ops, op.Sound := by
  have hinit : InOrder .init := inOrder_of_grounded fun x hx => absurd hx List.not_mem_nil
  rw [prefixes_iff]
  constructor
  · rintro ⟨-, h⟩ op hop
    obtain ⟨p, -, hsound⟩ := exists_of_mem (I := fun _ => True) (fun _ _ _ _ => trivial) trivial h hop
    exact (inOrder_step_iff p op).mp hsound
  · intro h
    exact ⟨hinit, Along.mono (fun p op hop => (inOrder_step_iff p op).mpr hop) (along_of_forall h)⟩

/-- A pending item under a parent that is no item has no line. -/
theorem restored_item_lost : ¬ ∀ ops, InOrder (run step .init ops) := by
  intro h
  let todo : Todo :=
    { id := some ⟨"a", true⟩, content := some ⟨"write the report", true⟩, parent := some ⟨"b", true⟩ }
  obtain ⟨text, depth, htext, -⟩ := (h [.restore [todo] 0]).shown
    ⟨⟨"a", by decide⟩, "write the report", .pending, some ⟨"b", by decide⟩⟩ (by decide_cbv) rfl
  have hnone : formatForInjection (run step .init [.restore [todo] 0]).items = some none := by decide
  rw [hnone] at htext
  cases htext

end Smara.Agent.TaskPlanner
