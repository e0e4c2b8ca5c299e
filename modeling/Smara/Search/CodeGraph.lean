import Mathlib.Data.List.Induction
import Smara.Lib.Chronicle
import Smara.Lib.Table

/-! # The graph of the code of a workspace

`CodePropertyGraph` reads from the files which symbol calls which name, and says what a change of a symbol touches.

* `visit`, `index`: the symbols of a module, and those of all files, of which the last one of a name stays.
* `called_by_iff`: the callers of a symbol are the symbols that call its name.
* `caller_found`: a call in a function whose name no other has is found, in whatever order the files come.
* `method_uncalled`: a method goes by another name than its calls, so it has no callers. -/

namespace Smara.Search.CodeGraph

open Lib.Chronicle Lib.Table

abbrev Text := List Char

/-! ### Modules -/

/-- An identifier. -/
structure Ident where
  text : Text
  no_dot : '.' ∉ text

/-- A list of nodes of `ast`: the first one with its children, and the others. The callee of a call is the name or
the attribute that is called, if it is one. -/
inductive Nodes
  | nil
  | classDef (name : Ident) (children rest : Nodes)
  | functionDef (name : Ident) (isAsync : Bool) (children rest : Nodes)
  | call (callee : Option Ident) (children rest : Nodes)
  | other (children rest : Nodes)

inductive Kind
  | ofClass | ofMethod | ofFunction | ofAsyncFunction | ofOther
  deriving DecidableEq

/-- `SymbolInfo`, by what the graph uses of it -/
structure SymbolInfo where
  name : Text
  kind : Kind
  filePath : Text
  calls : List Text := []
  calledBy : List Text := []

/-- `symbols[name] = symbol` -/
def record (t : List SymbolInfo) (s : SymbolInfo) : List SymbolInfo := upsert SymbolInfo.name s (fun _ => s) t

/-- `caller.calls.add(callee_name)`, if the caller is there -/
def recordCall (caller callee : Text) (t : List SymbolInfo) : List SymbolInfo :=
  updateWhere (fun s => s.name = caller) (fun s => { s with calls := s.calls.insert callee }) t

def visitCall (fn : Option Text) (callee : Option Ident) (t : List SymbolInfo) : List SymbolInfo :=
  match fn, callee with
  | some f, some c => recordCall f c.text t
  | _, _ => t

def fullName (cls : Option Text) (name : Text) : Text :=
  match cls with
  | some c => c ++ '.' :: name
  | none => name

def classSymbol (path : Text) (name : Ident) : SymbolInfo := { name := name.text, kind := .ofClass, filePath := path }

def functionSymbol (path : Text) (cls : Option Text) (name : Ident) (isAsync : Bool) : SymbolInfo where
  name := fullName cls name.text
  kind := if cls.isSome then .ofMethod else if isAsync then .ofAsyncFunction else .ofFunction
  filePath := path

/-- `_ASTSymbolVisitor`, with `_current_class` and `_current_function`: what it makes of the symbols -/
def visit (path : Text) : Option Text → Option Text → Nodes → List SymbolInfo → List SymbolInfo
  | _, _, .nil, t => t
  | cls, fn, .classDef name children rest, t =>
    visit path cls fn rest (visit path (some name.text) fn children (record t (classSymbol path name)))
  | cls, fn, .functionDef name isAsync children rest, t =>
    visit path cls fn rest
      (visit path cls (some (fullName cls name.text)) children (record t (functionSymbol path cls name isAsync)))
  | cls, fn, .call callee children rest, t =>
    visit path cls fn rest (visit path cls fn children (visitCall fn callee t))
  | cls, fn, .other children rest, t => visit path cls fn rest (visit path cls fn children t)

/-! ### Files -/

/-- What the patterns of the other languages find: it is no method, and has no callees. -/
structure Found where
  name : Ident
  kind : Kind
  top : kind ≠ .ofMethod

/-- A module of Python, `none` if it is not one, or a file of another language. -/
inductive Content
  | python (tree : Option Nodes)
  | other (symbols : List Found)

structure SourceFile where
  path : Text
  content : Content

/-- The symbols that `_index_file` reads -/
def SourceFile.symbols (f : SourceFile) : List SymbolInfo :=
  match f.content with
  | .python none => []
  | .python (some tree) => visit f.path none none tree []
  | .other symbols =>
    (symbols.map fun s => { name := s.name.text, kind := s.kind, filePath := f.path }).foldl record []

def indexFile (t : List SymbolInfo) (f : SourceFile) : List SymbolInfo := f.symbols.foldl record t

/-- `callee.called_by.add(caller_name)`, if the callee is there -/
def link (t : List SymbolInfo) (x : Text × Text) : List SymbolInfo :=
  updateWhere (fun s => s.name = x.2) (fun s => { s with calledBy := s.calledBy.insert x.1 }) t

/-- `_resolve_graph_edges` -/
def resolveGraphEdges (t : List SymbolInfo) : List SymbolInfo :=
  t.foldl (fun t' caller => caller.calls.foldl (fun t' called => link t' (caller.name, called)) t') t

/-- `index`, of the files in the order in which `os.walk` comes to them -/
def index (files : List SourceFile) : List SymbolInfo := resolveGraphEdges (files.foldl indexFile [])

/-- The symbol that `blast_radius` goes by -/
def findSymbol (lower : Text → Text) (t : List SymbolInfo) (target : Text) : Option SymbolInfo :=
  (lookup SymbolInfo.name target t).or
    (t.find? fun s => lower s.name = lower target ∨ '.' :: lower target <:+ lower s.name)

/-- The files and the callers that a change of the symbol touches. -/
def impact (t : List SymbolInfo) (symbol : SymbolInfo) : List Text × List Text :=
  let methods := if symbol.kind = .ofClass then t.filter fun s => symbol.name ++ ['.'] <+: s.name else []
  let callers := symbol.calledBy ∪ methods.flatMap SymbolInfo.calledBy
  ([symbol.filePath] ∪ callers.filterMap fun c => (lookup SymbolInfo.name c t).map SymbolInfo.filePath, callers)

/-- `blast_radius` of a symbol -/
def blastRadius (lower : Text → Text) (t : List SymbolInfo) (target : Text) : List Text × List Text :=
  ((findSymbol lower t target).map (impact t)).getD ([], [])

/-! ### A walk -/

/-- What a walk does to the symbols. -/
inductive Event
  | define (s : SymbolInfo)
  | call (caller callee : Text)

def act (t : List SymbolInfo) : Event → List SymbolInfo
  | .define s => record t s
  | .call caller callee => recordCall caller callee t

def callEvents (fn : Option Text) (callee : Option Ident) : List Event :=
  match fn, callee with
  | some f, some c => [.call f c.text]
  | _, _ => []

/-- The events of the walk through the nodes, in their order. -/
def events (path : Text) : Option Text → Option Text → Nodes → List Event
  | _, _, .nil => []
  | cls, fn, .classDef name children rest =>
    .define (classSymbol path name) :: (events path (some name.text) fn children ++ events path cls fn rest)
  | cls, fn, .functionDef name isAsync children rest =>
    .define (functionSymbol path cls name isAsync) ::
      (events path cls (some (fullName cls name.text)) children ++ events path cls fn rest)
  | cls, fn, .call callee children rest =>
    callEvents fn callee ++ (events path cls fn children ++ events path cls fn rest)
  | cls, fn, .other children rest => events path cls fn children ++ events path cls fn rest

def Event.name : Event → Option Text
  | .define s => some s.name
  | .call _ _ => none

/-- The names that are defined, each as often as it is. -/
def names (es : List Event) : List Text := es.filterMap Event.name

section Walk
variable {path x g : Text} {cls fn : Option Text} {es : List Event} {s : SymbolInfo} {t : List SymbolInfo}

theorem visit_eq (n : Nodes) : visit path cls fn n t = (events path cls fn n).foldl act t := by
  induction n generalizing cls fn t with
  | nil => rfl
  | classDef name children rest ihc ihr | functionDef name isAsync children rest ihc ihr =>
    rw [visit, ihr, ihc, events, List.foldl_cons, List.foldl_append]
    rfl
  | call callee children rest ihc ihr =>
    rw [visit, ihr, ihc, events, List.foldl_append, List.foldl_append]
    cases fn <;> cases callee <;> rfl
  | other children rest ihc ihr => rw [visit, ihr, ihc, events, List.foldl_append]

/-- A call is recorded for the function around it, which is defined before. -/
def Scoped (fn : Option Text) (pre : List Event) : Event → Prop
  | .call caller _ => fn = some caller ∨ caller ∈ names pre
  | .define _ => True

theorem scoped_append {fn' : Option Text} {es' : List Event} (h : Lawful (Scoped fn) es) (h' : Lawful (Scoped fn') es')
    (hfn : ∀ f, fn' = some f → fn = some f ∨ f ∈ names es) : Lawful (Scoped fn) (es ++ es') := by
  refine lawful_append.mpr ⟨h, fun pre e post heq => ?_⟩
  have he := h' pre e post heq
  cases e with
  | define s => exact trivial
  | call caller callee =>
    have hmem : ∀ {l l'}, caller ∈ names l ∨ caller ∈ names l' → caller ∈ names (l ++ l') := by simp [names]
    rcases he with hf | hpre
    · exact (hfn caller hf).imp_right fun h => hmem (Or.inl h)
    · exact Or.inr (hmem (Or.inr hpre))

theorem scoped_one {e : Event} (h : Scoped fn [] e) : Lawful (Scoped fn) [e] := lawful_snoc.mpr ⟨lawful_nil, h⟩

theorem scoped_events (n : Nodes) : Lawful (Scoped fn) (events path cls fn n) := by
  have hsame : ∀ {f : Option Text} {es : List Event}, ∀ a, f = some a → f = some a ∨ a ∈ names es := fun _ => Or.inl
  have hdefine : ∀ {f : Option Text} {s : SymbolInfo}, Lawful (Scoped f) [.define s] := scoped_one (e := .define _) trivial
  induction n generalizing cls fn with
  | nil => exact lawful_nil
  | classDef name children rest ihc ihr => exact scoped_append (scoped_append hdefine ihc hsame) ihr hsame
  | functionDef name isAsync children rest ihc ihr =>
    refine scoped_append (scoped_append hdefine ihc ?_) ihr hsame
    intro f hf
    rw [← Option.some.inj hf]
    exact Or.inr List.mem_cons_self
  | call callee children rest ihc ihr =>
    refine scoped_append ?_ (scoped_append ihc ihr hsame) hsame
    cases fn with
    | none => exact lawful_nil
    | some f =>
      cases callee with
      | none => exact lawful_nil
      | some c => exact scoped_one (e := .call _ _) (Or.inl rfl)
  | other children rest ihc ihr => exact scoped_append ihc ihr hsame

theorem lookup_record : lookup SymbolInfo.name x (record t s) =
    if x = s.name then some s else lookup SymbolInfo.name x t := by
  rw [record, lookup_upsert fun _ _ => rfl]
  cases lookup SymbolInfo.name x t <;> rfl

theorem lookup_recordCall (caller g : Text) (h : lookup SymbolInfo.name x t = some s) :
    ∃ s', lookup SymbolInfo.name x (recordCall caller g t) = some s' ∧ s'.filePath = s.filePath ∧
      (∀ c ∈ s.calls, c ∈ s'.calls) ∧ (x = caller → g ∈ s'.calls) := by
  have hname := key_of_lookup h
  have hupdate : lookup SymbolInfo.name x (recordCall caller g t) = (lookup SymbolInfo.name x t).map fun s =>
      if s.name = caller then { s with calls := s.calls.insert g } else s := lookup_updateWhere fun _ _ => rfl
  rw [hupdate, h]
  refine ⟨_, rfl, ?_⟩
  dsimp only
  by_cases hx : s.name = caller
  · rw [if_pos hx]
    exact ⟨rfl, fun c hc => List.mem_insert_of_mem hc, fun _ => List.mem_insert_self⟩
  · rw [if_neg hx]
    exact ⟨rfl, fun c hc => hc, fun h => absurd (hname.trans h) hx⟩

theorem keyed_act (h : Keyed SymbolInfo.name t) (e : Event) : Keyed SymbolInfo.name (act t e) := by
  cases e with
  | define s => exact h.upsert fun _ _ => rfl
  | call caller callee =>
    refine (keyed_updateWhere ?_).mpr h
    intro _ _
    rfl

/-- The symbol of a name that is not defined again stays, with its calls. -/
theorem stays (h : lookup SymbolInfo.name x t = some s) (hx : x ∉ names es) :
    ∃ s', lookup SymbolInfo.name x (es.foldl act t) = some s' ∧ s'.filePath = s.filePath ∧ ∀ c ∈ s.calls, c ∈ s'.calls := by
  induction es generalizing t s with
  | nil => exact ⟨s, h, rfl, fun _ hc => hc⟩
  | cons e es ih =>
    cases e with
    | define s₁ =>
      have hne : x ≠ s₁.name ∧ x ∉ names es := by simpa [names, Event.name, eq_comm] using hx
      exact ih (by rw [act, lookup_record, if_neg hne.1, h]) hne.2
    | call caller callee =>
      obtain ⟨s₁, hs₁, hp₁, hc₁, -⟩ := lookup_recordCall caller callee h
      obtain ⟨s', hs', hp, hc⟩ := ih hs₁ hx
      exact ⟨s', hs', hp.trans hp₁, fun c hmem => hc c (hc₁ c hmem)⟩

theorem defined (hpath : ∀ s, .define s ∈ es → s.filePath = path) (hx : x ∈ names es) :
    ∃ s, lookup SymbolInfo.name x (es.foldl act t) = some s ∧ s.filePath = path := by
  induction es using List.reverseRecOn with
  | nil => simp [names] at hx
  | append_singleton es e ih =>
    rw [List.foldl_append, List.foldl_cons, List.foldl_nil]
    have hbefore := ih fun s hs => hpath s (List.mem_append_left _ hs)
    cases e with
    | define s =>
      rw [act, lookup_record]
      by_cases hs : x = s.name
      · exact ⟨s, if_pos hs, hpath s (by simp)⟩
      · rw [if_neg hs]
        refine hbefore ?_
        simpa [names, Event.name, hs, Ne.symm hs] using hx
    | call caller callee =>
      obtain ⟨s, hs, hp⟩ := hbefore (by simpa [names, Event.name] using hx)
      obtain ⟨s', hs', hp', -⟩ := lookup_recordCall caller callee hs
      exact ⟨s', hs', hp'.trans hp⟩

/-- **A call is recorded**, if the function around it is defined once. -/
theorem recorded (hscoped : Lawful (Scoped none) es) (hpath : ∀ s, .define s ∈ es → s.filePath = path)
    (hone : (names es).count x = 1) (hcall : .call x g ∈ es) :
    ∃ s, lookup SymbolInfo.name x (es.foldl act []) = some s ∧ s.filePath = path ∧ g ∈ s.calls := by
  obtain ⟨pre, post, rfl⟩ := List.append_of_mem hcall
  have hx : x ∈ names pre := (hscoped pre _ post rfl).resolve_left (by simp)
  have hpost : x ∉ names post := by
    have hpos := List.count_pos_iff.mpr hx
    have hsplit : names (pre ++ .call x g :: post) = names pre ++ names post := List.filterMap_append
    rw [hsplit, List.count_append] at hone
    exact List.count_eq_zero.mp (by omega)
  obtain ⟨s, hs, hp⟩ := defined (t := []) (fun s hs => hpath s (List.mem_append_left _ hs)) hx
  obtain ⟨s₁, hs₁, hp₁, -, hg⟩ := lookup_recordCall x g hs
  rw [List.foldl_append, List.foldl_cons]
  obtain ⟨s', hs', hp', hcalls⟩ := stays hs₁ hpost
  exact ⟨s', hs', hp'.trans (hp₁.trans hp), hcalls g (hg rfl)⟩

end Walk

/-! ### The symbols of all files -/

section Files
variable {path x c : Text} {cls fn : Option Text} {s : SymbolInfo} {t l : List SymbolInfo} {f : SourceFile}
  {files : List SourceFile}

/-- What holds of a symbol before the edges are resolved. -/
structure Fresh (s : SymbolInfo) : Prop where
  uncalled : s.calledBy = []
  calls : ∀ c ∈ s.calls, '.' ∉ c
  method : s.kind = .ofMethod → '.' ∈ s.name

def FreshEvent (path : Text) : Event → Prop
  | .define s => Fresh s ∧ s.filePath = path
  | .call _ callee => '.' ∉ callee

theorem fresh_events (n : Nodes) : ∀ e ∈ events path cls fn n, FreshEvent path e := by
  induction n generalizing cls fn with
  | nil => simp [events]
  | classDef name children rest ihc ihr =>
    refine List.forall_mem_cons.mpr ⟨⟨⟨rfl, by simp [classSymbol], by simp [classSymbol]⟩, rfl⟩, ?_⟩
    exact List.forall_mem_append.mpr ⟨ihc, ihr⟩
  | functionDef name isAsync children rest ihc ihr =>
    refine List.forall_mem_cons.mpr ⟨⟨⟨rfl, by simp [functionSymbol], ?_⟩, rfl⟩, List.forall_mem_append.mpr ⟨ihc, ihr⟩⟩
    cases cls with
    | none => cases isAsync <;> simp [functionSymbol]
    | some c => simp [functionSymbol, fullName]
  | call callee children rest ihc ihr =>
    refine List.forall_mem_append.mpr ⟨?_, List.forall_mem_append.mpr ⟨ihc, ihr⟩⟩
    cases fn <;> cases callee
    case some.some f c => simpa [callEvents, FreshEvent] using c.no_dot
    all_goals simp [callEvents]
  | other children rest ihc ihr => exact List.forall_mem_append.mpr ⟨ihc, ihr⟩

theorem fresh_record (h : ∀ s ∈ t, Fresh s) (hl : ∀ s ∈ l, Fresh s) : ∀ s ∈ l.foldl record t, Fresh s := by
  induction l generalizing t with
  | nil => exact h
  | cons s l ih =>
    refine ih (fun s' hs' => ?_) fun s' hs' => hl s' (List.mem_cons_of_mem _ hs')
    rcases mem_upsert.mp hs' with ⟨hold, -⟩ | ⟨_, -, -, rfl⟩ | ⟨-, rfl⟩
    · exact h s' hold
    · exact hl s List.mem_cons_self
    · exact hl s' List.mem_cons_self

theorem keyed_record (h : Keyed SymbolInfo.name t) : Keyed SymbolInfo.name (l.foldl record t) := by
  induction l generalizing t with
  | nil => exact h
  | cons s l ih => exact ih (h.upsert fun _ _ => rfl)

/-- **The symbols of a file** are fresh, and their names are distinct. -/
theorem symbols_spec (f : SourceFile) : (∀ s ∈ f.symbols, Fresh s) ∧ Keyed SymbolInfo.name f.symbols := by
  obtain ⟨path, content⟩ := f
  rcases content with (_ | tree) | symbols
  · exact ⟨by simp [SourceFile.symbols], List.nodup_nil⟩
  · have hevents := @fresh_events path none none tree
    unfold SourceFile.symbols
    dsimp only
    rw [visit_eq]
    generalize events path none none tree = es at hevents
    refine List.foldlRecOn es act (motive := fun t => (∀ s ∈ t, Fresh s) ∧ Keyed SymbolInfo.name t)
      ⟨by simp, List.nodup_nil⟩ fun t ht e he => ⟨?_, keyed_act ht.2 e⟩
    cases e with
    | define s => exact fresh_record (l := [s]) ht.1 (by simpa using (hevents _ he).1)
    | call caller callee =>
      intro s' hs'
      obtain ⟨s, hs, rfl⟩ := mem_updateWhere.mp hs'
      split_ifs
      · refine ⟨(ht.1 s hs).uncalled, fun c hc => ?_, (ht.1 s hs).method⟩
        rcases List.mem_insert_iff.mp hc with rfl | hc
        · exact hevents _ he
        · exact (ht.1 s hs).calls c hc
      · exact ht.1 s hs
  · refine ⟨fresh_record (by simp) ?_, keyed_record List.nodup_nil⟩
    intro s hs
    obtain ⟨x, -, rfl⟩ := List.mem_map.mp hs
    exact ⟨rfl, by simp, fun h => absurd h x.top⟩

theorem files_spec (files : List SourceFile) : (∀ s ∈ files.foldl indexFile [], Fresh s) ∧
    Keyed SymbolInfo.name (files.foldl indexFile []) := by
  refine List.foldlRecOn files indexFile (motive := fun t => (∀ s ∈ t, Fresh s) ∧ Keyed SymbolInfo.name t)
    ⟨by simp, List.nodup_nil⟩ fun t ht f _ => ?_
  exact ⟨fresh_record ht.1 (symbols_spec f).1, keyed_record ht.2⟩

theorem lookup_foldl_record (hl : Keyed SymbolInfo.name l) : lookup SymbolInfo.name x (l.foldl record t) =
    (lookup SymbolInfo.name x l).or (lookup SymbolInfo.name x t) := by
  induction l generalizing t with
  | nil => rfl
  | cons s l ih =>
    obtain ⟨hs, hl⟩ := List.nodup_cons.mp hl
    have hcons : lookup SymbolInfo.name x (s :: l) = if x = s.name then some s else lookup SymbolInfo.name x l := by
      rw [← List.singleton_append, lookup_append]
      by_cases h : s.name = x
      · simp [lookup, h]
      · simp [lookup, h, Ne.symm h]
    rw [List.foldl_cons, ih hl, lookup_record, hcons]
    split_ifs with h
    · have hnone : lookup SymbolInfo.name x l = none :=
        lookup_eq_none.mpr fun r hr hk => hs (List.mem_map.mpr ⟨r, hr, hk.trans h⟩)
      rw [hnone]
      rfl
    · rfl

/-- **The symbol of a name that one file has** is the one of that file. -/
theorem lookup_files (hf : f ∈ files) (hs : lookup SymbolInfo.name x f.symbols = some s)
    (hothers : ∀ f' ∈ files, f' ≠ f → ∀ s' ∈ f'.symbols, s'.name ≠ x) :
    lookup SymbolInfo.name x (files.foldl indexFile []) = some s := by
  induction files using List.reverseRecOn with
  | nil => simp at hf
  | append_singleton files f' ih =>
    rw [List.foldl_append, List.foldl_cons, List.foldl_nil, indexFile, lookup_foldl_record (symbols_spec f').2]
    by_cases h : f' = f
    · rw [h, hs]
      rfl
    · have hmem : f ∈ files := by simpa [Ne.symm h] using hf
      rw [lookup_eq_none.mpr (hothers f' (by simp) h), ih hmem fun f'' hf'' => hothers f'' (by simp [hf''])]
      rfl

/-- What the edges add, in whatever order they come. -/
theorem foldl_link (xs : List (Text × Text)) (t : List SymbolInfo) : ∃ callers : SymbolInfo → List Text,
    xs.foldl link t = t.map (fun s => { s with calledBy := callers s }) ∧
      ∀ s c, c ∈ callers s ↔ c ∈ s.calledBy ∨ (c, s.name) ∈ xs := by
  induction xs generalizing t with
  | nil => exact ⟨SymbolInfo.calledBy, (List.map_id t).symm, by simp⟩
  | cons x xs ih =>
    obtain ⟨callers, hmap, hmem⟩ := ih (link t x)
    refine ⟨fun s => callers (if s.name = x.2 then { s with calledBy := s.calledBy.insert x.1 } else s), ?_, ?_⟩
    · rw [List.foldl_cons, hmap, link, updateWhere, List.map_map]
      refine List.map_congr_left fun s _ => ?_
      dsimp only [Function.comp_apply]
      split_ifs <;> rfl
    · intro s c
      rw [hmem, List.mem_cons, Prod.ext_iff]
      split_ifs with h
      · simp [h, List.mem_insert_iff, or_assoc, or_left_comm]
      · simp [h]

/-- **The symbols after the edges are resolved**: nothing else changes. -/
theorem index_spec (files : List SourceFile) : ∃ callers : SymbolInfo → List Text,
    index files = (files.foldl indexFile []).map (fun s => { s with calledBy := callers s }) ∧
      ∀ s ∈ files.foldl indexFile [], ∀ c,
        c ∈ callers s ↔ ∃ t ∈ files.foldl indexFile [], t.name = c ∧ s.name ∈ t.calls := by
  obtain ⟨hfresh, -⟩ := files_spec files
  unfold index resolveGraphEdges
  generalize files.foldl indexFile [] = t at hfresh
  obtain ⟨callers, hmap, hmem⟩ := foldl_link (t.flatMap fun s => s.calls.map fun c => (s.name, c)) t
  rw [List.foldl_flatMap] at hmap
  simp only [List.foldl_map] at hmap
  refine ⟨callers, hmap, fun s hs c => ?_⟩
  rw [hmem, (hfresh s hs).uncalled]
  simp [and_comm]

/-- **The callers of a symbol** are the symbols that call its name. -/
theorem called_by_iff (files : List SourceFile) : Keyed SymbolInfo.name (index files) ∧
    ∀ s ∈ index files, ∀ c, c ∈ s.calledBy ↔ ∃ t ∈ index files, t.name = c ∧ s.name ∈ t.calls := by
  obtain ⟨callers, heq, hcallers⟩ := index_spec files
  rw [heq]
  refine ⟨?_, fun s hs c => ?_⟩
  · unfold Keyed
    rw [List.map_map]
    exact (files_spec files).2
  · obtain ⟨s₀, hs₀, rfl⟩ := List.mem_map.mp hs
    rw [hcallers s₀ hs₀]
    simp

/-- **A method has no callers.** -/
theorem method_uncalled (files : List SourceFile) : ∀ s ∈ index files, s.kind = .ofMethod → s.calledBy = [] := by
  obtain ⟨callers, heq, hcallers⟩ := index_spec files
  rw [heq]
  intro s hs hkind
  obtain ⟨s₀, hs₀, rfl⟩ := List.mem_map.mp hs
  refine List.eq_nil_iff_forall_not_mem.mpr fun c hc => ?_
  obtain ⟨t, ht, -, hcall⟩ := (hcallers s₀ hs₀ c).mp hc
  obtain ⟨hfresh, -⟩ := files_spec files
  exact (hfresh t ht).calls _ hcall ((hfresh s₀ hs₀).method hkind)

/-- **A call is found**, in whatever order the files come, if the name of the function around it is defined nowhere
else. -/
theorem caller_found (lower : Text → Text) {tree : Nodes} {caller callee : Text} (hf : f ∈ files)
    (htree : f.content = .python (some tree)) (hcall : .call caller callee ∈ events f.path none none tree)
    (hone : (names (events f.path none none tree)).count caller = 1)
    (hothers : ∀ f' ∈ files, f' ≠ f → ∀ s ∈ f'.symbols, s.name ≠ caller)
    (hknown : ∃ s ∈ index files, s.name = callee) :
    caller ∈ (blastRadius lower (index files) callee).2 ∧ f.path ∈ (blastRadius lower (index files) callee).1 := by
  obtain ⟨s, hs, rfl⟩ := hknown
  obtain ⟨r, hr, hpath, hcalls⟩ := recorded (scoped_events tree)
    (fun s hs => (fresh_events tree (.define s) hs).2) hone hcall
  have hsymbols : f.symbols = (events f.path none none tree).foldl act [] := by
    rw [SourceFile.symbols, htree, ← visit_eq]
  rw [← hsymbols] at hr
  have hbefore := lookup_files hf hr hothers
  obtain ⟨callers, heq, -⟩ := index_spec files
  have hmem : { r with calledBy := callers r } ∈ index files :=
    heq ▸ List.mem_map.mpr ⟨r, mem_of_lookup hbefore, rfl⟩
  obtain ⟨hkeyed, hiff⟩ := called_by_iff files
  have hname : r.name = caller := key_of_lookup hbefore
  have hcaller : caller ∈ s.calledBy := (hiff s hs caller).mpr ⟨_, hmem, hname, hcalls⟩
  have hfound : lookup SymbolInfo.name caller (index files) = some { r with calledBy := callers r } :=
    hname ▸ lookup_key hkeyed hmem
  have hfind : findSymbol lower (index files) s.name = some s := by
    rw [findSymbol, lookup_key hkeyed hs, Option.some_or]
  rw [blastRadius, hfind]
  have hmem : caller ∈ (impact (index files) s).2 := List.mem_union_iff.mpr (Or.inl hcaller)
  refine ⟨hmem, List.mem_union_iff.mpr (Or.inr (List.mem_filterMap.mpr ⟨caller, hmem, ?_⟩))⟩
  rw [hfound, ← hpath]
  rfl

/-- `class C: def f(): g()`, before `function g() {}` -/
def twoFiles : List SourceFile :=
  [⟨['a'], .python (some (.classDef ⟨['C'], by decide⟩
      (.functionDef ⟨['f'], by decide⟩ false (.call (some ⟨['g'], by decide⟩) .nil .nil) .nil) .nil))⟩,
    ⟨['b'], .other [⟨⟨['g'], by decide⟩, .ofFunction, by decide⟩]⟩]

theorem caller_found_before : ['C', '.', 'f'] ∈ (blastRadius id (index twoFiles) ['g']).2 := by
  refine (caller_found id List.mem_cons_self rfl (.tail _ (.tail _ (.head _))) (by decide) ?_ (by decide)).1
  intro f' hf' hne
  obtain rfl := List.mem_singleton.mp ((List.mem_cons.mp hf').resolve_left hne)
  decide

theorem method_uncalled_before : ∃ s ∈ index twoFiles, s.kind = .ofMethod ∧ s.calledBy = [] := by
  obtain ⟨s, hs, hkind⟩ : ∃ s ∈ index twoFiles, s.kind = .ofMethod := by decide
  exact ⟨s, hs, hkind, method_uncalled twoFiles s hs hkind⟩

end Files

end Smara.Search.CodeGraph
