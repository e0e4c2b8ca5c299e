import Smara.Lib.Chronicle
import Smara.Lib.PyText
import Smara.Lib.Table
import Smara.Lib.Utf8

/-! # The index of the code of a workspace

`index_workspace` visits the files that are there, and leaves those alone whose content it has indexed before.

* `extractChunks`: the chunks of a file.
* `indexFile`, `indexWorkspace`: what a call does to the two tables.
* `Synced`: the tables are those of a set of files.
* `synced_indexFile`: a file that is visited takes the place of the one that was at its path.
* `in_sync`: the index is the one that a first call would make, as long as no file is deleted or renamed. -/

namespace Smara.Search.Index

open Lib.Chronicle Lib.Machine Lib.PyText Lib.Table Lib.Utf8

abbrev Text := List Char

/-! ### Files -/

/-- A file: the names of its directories under the workspace and its own, and its content. -/
structure File where
  path : List Text
  bytes : List UInt8
  path_ne : path ≠ []
  no_slash : ∀ name ∈ path, '/' ∉ name
  deriving DecidableEq

/-- The files of a workspace, in the order in which `os.walk` comes to them. -/
structure Workspace where
  files : List File
  nodup : (files.map File.path).Nodup

def File.name (f : File) : Text := f.path.getLast f.path_ne

/-- What is before the last dot, and behind it. -/
def atLastDot : Text → Option (Text × Text)
  | [] => none
  | c :: cs =>
    match atLastDot cs with
    | some (stem, ext) => some (c :: stem, ext)
    | none => if c = '.' then some ([], cs) else none

/-- `PurePath.stem` and `PurePath.suffix` of a name -/
def splitName (name : Text) : Text × Text :=
  match atLastDot name with
  | some (stem, ext) => if stem ≠ [] ∧ ext ≠ [] then (stem, '.' :: ext) else (name, [])
  | none => (name, [])

def File.stem (f : File) : Text := (splitName f.name).1

def File.suffix (f : File) : Text := (splitName f.name).2

/-- `str(p.relative_to(self.workspace)).replace("\\", "/")` -/
def File.relPath (f : File) : Text := (['/'].intercalate f.path).map fun c => if c = '\\' then '/' else c

def supportedExts : List Text :=
  [".py", ".ts", ".tsx", ".rs", ".js", ".jsx", ".md"].map String.toList

/-- The directories that are not entered. -/
def skippedDirs : List Text :=
  [".git", ".venv", "venv", "__pycache__", "node_modules", "target", ".smara", "dist", "build", "tests_tmp",
    ".pytest_cache", "artifacts"].map String.toList

/-- The walk comes to the file, and it is of a supported kind. -/
def File.Visited (f : File) : Prop := (∀ d ∈ f.path.dropLast, d ∉ skippedDirs) ∧ f.suffix ∈ supportedExts

instance (f : File) : Decidable f.Visited := inferInstanceAs (Decidable (_ ∧ _))

/-! ### Chunks -/

/-- A definition that `ast.walk` comes to. -/
structure Node where
  name : Text
  isClass : Bool
  lineno : ℕ
  endLineno : ℕ
  docstring : Text

/-- A parsed module: its docstring, and its definitions in the order of `ast.walk`. -/
structure Tree where
  docstring : Text
  nodes : List Node

inductive Kind
  | ofModule | ofClass | ofFunction | ofBlock
  deriving DecidableEq

/-- `CodeChunk`, without the vector, which the tokens determine -/
structure CodeChunk where
  chunkId : Text
  filePath : Text
  symbolName : Text
  kind : Kind
  startLine : ℕ
  endLine : ℕ
  docstring : Text
  codeSnippet : Text
  tokens : List Text
  deriving DecidableEq

/-- The functions that are used: the digest, `ast.parse` (`none` if it raises), `_tokenize`, and the search for a
symbol in a block. Different contents have different digests, and the names of definitions are identifiers. -/
structure Host (D : Type) where
  sha256 : List UInt8 → D
  parse : Text → Option Tree
  tokenize : Text → List Text
  symbol : Text → Option Text
  sha256_inj : Function.Injective sha256
  parse_names : ∀ content tree, parse content = some tree → ∀ n ∈ tree.nodes, '.' ∉ n.name

def number (n : ℕ) : Text := n.repr.toList

/-- `"\n".join` -/
def joinLines (lines : List Text) : Text := ['\n'].intercalate lines

variable {D : Type} (h : Host D)

/-- `_extract_generic_chunks`; line breaks of all kinds are the same to `splitlines`. -/
def extractGenericChunks (f : File) : List CodeChunk :=
  let lines := splitLines (decode f.bytes)
  ((List.range ((lines.length + 29) / 30)).map (30 * ·)).filterMap fun i =>
    let snippet := joinLines ((lines.drop i).take 30)
    let tokens := h.tokenize snippet ++ h.tokenize f.relPath
    if tokens = [] then none
    else some {
      chunkId := f.relPath ++ ':' :: number (i + 1)
      filePath := f.relPath
      symbolName := (h.symbol snippet).getD (f.stem ++ ':' :: number (i + 1))
      kind := if (h.symbol snippet).isSome then .ofFunction else .ofBlock
      startLine := i + 1
      endLine := min (i + 30) lines.length
      docstring := []
      codeSnippet := snippet.take 1200
      tokens }

def moduleChunk (f : File) (lines : List Text) (tree : Tree) : List CodeChunk :=
  if tree.docstring = [] then []
  else [{
    chunkId := f.relPath ++ ":module".toList
    filePath := f.relPath
    symbolName := f.stem
    kind := .ofModule
    startLine := 1
    endLine := min 30 lines.length
    docstring := tree.docstring
    codeSnippet := joinLines (lines.take 25)
    tokens := h.tokenize tree.docstring ++ h.tokenize f.relPath }]

def nodeChunk (f : File) (lines : List Text) (n : Node) : CodeChunk :=
  let snippet := joinLines ((lines.take n.endLineno).drop (n.lineno - 1))
  { chunkId := f.relPath ++ ':' :: (n.name ++ ':' :: number n.lineno)
    filePath := f.relPath
    symbolName := n.name
    kind := if n.isClass then .ofClass else .ofFunction
    startLine := n.lineno
    endLine := n.endLineno
    docstring := n.docstring
    codeSnippet := snippet.take 1200
    tokens := h.tokenize (n.name ++ ' ' :: (n.docstring ++ ' ' :: snippet)) }

def extractChunksFromPython (f : File) : List CodeChunk :=
  let content := decode f.bytes
  match h.parse content with
  | none => extractGenericChunks h f
  | some tree => moduleChunk h f (splitLines content) tree ++ tree.nodes.map (nodeChunk h f (splitLines content))

def extractChunks (f : File) : List CodeChunk :=
  if f.suffix = ".py".toList then extractChunksFromPython h f else extractGenericChunks h f

/-! ### The tables -/

/-- `code_chunks` and `indexed_files` -/
structure Db (D : Type) where
  codeChunks : List CodeChunk := []
  indexedFiles : List (Text × D) := []

/-- `INSERT OR REPLACE` -/
def insertOrReplace {ρ κ : Type} [DecidableEq κ] (key : ρ → κ) (t : List ρ) (r : ρ) : List ρ :=
  deleteWhere (fun r' => key r' = key r) t ++ [r]

variable [DecidableEq D]

/-- One round of the walk. -/
def indexFile (force : Bool) (db : Db D) (f : File) : Db D :=
  if ¬ f.Visited then db
  else if ¬ force ∧ (lookup Prod.fst f.relPath db.indexedFiles).map Prod.snd = some (h.sha256 f.bytes) then db
  else {
    codeChunks := (extractChunks h f).foldl (insertOrReplace CodeChunk.chunkId)
      (deleteWhere (fun c => c.filePath = f.relPath) db.codeChunks)
    indexedFiles := insertOrReplace Prod.fst db.indexedFiles (f.relPath, h.sha256 f.bytes) }

def indexWorkspace (force : Bool) (db : Db D) (ws : Workspace) : Db D := ws.files.foldl (indexFile h force) db

/-- The tables after calls, each of which finds the files of the workspace as they are then. -/
def indexed (calls : List Workspace) : Db D := run (indexWorkspace h false) {} calls

/-- **The index is that of a first call**, and each of its chunks is one of a file that is there. -/
structure InSync (db : Db D) (ws : Workspace) : Prop where
  codeChunks : ∀ c, c ∈ db.codeChunks ↔ c ∈ (indexWorkspace h false {} ws).codeChunks
  indexedFiles : ∀ r, r ∈ db.indexedFiles ↔ r ∈ (indexWorkspace h false {} ws).indexedFiles
  current : ∀ c ∈ db.codeChunks, ∃ f ∈ ws.files, f.Visited ∧ c ∈ extractChunks h f

/-- No name has a backslash. -/
def File.Plain (f : File) : Prop := ∀ name ∈ f.path, '\\' ∉ name

/-- **The files that were indexed before are still there**, with whatever content, and no name has a backslash. -/
def Kept (before : List Workspace) (ws : Workspace) : Prop :=
  (∀ f ∈ ws.files, f.Visited → f.Plain) ∧
    ∀ ws' ∈ before, ∀ f ∈ ws'.files, f.Visited → ∃ g ∈ ws.files, g.Visited ∧ g.path = f.path

/-! ### Paths -/

variable {h} {f g : File} {c : CodeChunk} {db : Db D}

theorem intercalate_no {c : Char} {path : List Text} (hc : c ≠ '/') (hpath : ∀ name ∈ path, c ∉ name) :
    c ∉ ['/'].intercalate path := by
  induction path with
  | nil => exact List.not_mem_nil
  | cons name path ih =>
    have hname := hpath name List.mem_cons_self
    have hrest := ih fun name hname => hpath name (List.mem_cons_of_mem _ hname)
    cases path with
    | nil => rwa [List.intercalate_singleton]
    | cons next path =>
      rw [List.intercalate_cons_cons, List.mem_append, List.mem_append, List.mem_singleton]
      rintro ((hmem | hmem) | hmem)
      · exact hname hmem
      · exact hc hmem
      · exact hrest hmem

theorem intercalate_last {path : List Text} (hne : path ≠ []) :
    ∃ front, ['/'].intercalate path = front ++ path.getLast hne := by
  induction path with
  | nil => exact absurd rfl hne
  | cons name path ih =>
    cases path with
    | nil => exact ⟨[], by rw [List.intercalate_singleton]; rfl⟩
    | cons next path =>
      obtain ⟨front, hfront⟩ := ih (List.cons_ne_nil _ _)
      exact ⟨name ++ ['/'] ++ front, by rw [List.intercalate_cons_cons, hfront, ← List.append_assoc]; rfl⟩

theorem relPath_plain (hf : f.Plain) : f.relPath = ['/'].intercalate f.path := by
  have hno : ∀ c ∈ ['/'].intercalate f.path, (if c = '\\' then '/' else c) = c := by
    intro c hc
    refine if_neg ?_
    rintro rfl
    exact intercalate_no (by decide) hf hc
  exact (List.map_congr_left hno).trans (List.map_id _)

theorem path_of_relPath (hf : f.Plain) (hg : g.Plain) (heq : f.relPath = g.relPath) : f.path = g.path := by
  rw [relPath_plain hf, relPath_plain hg] at heq
  rw [← List.splitOn_intercalate '/' f.no_slash f.path_ne, heq, List.splitOn_intercalate '/' g.no_slash g.path_ne]

theorem eq_of_atLastDot {name stem ext : Text} (h : atLastDot name = some (stem, ext)) : name = stem ++ '.' :: ext := by
  induction name generalizing stem with
  | nil => cases h
  | cons c cs ih =>
    rw [atLastDot] at h
    cases hcs : atLastDot cs with
    | some parts =>
      rw [hcs] at h
      obtain ⟨rfl, rfl⟩ := Prod.mk.inj (Option.some.inj h)
      rw [ih hcs, List.cons_append]
    | none =>
      rw [hcs] at h
      simp only at h
      split_ifs at h with hdot
      obtain ⟨rfl, rfl⟩ := Prod.mk.inj (Option.some.inj h)
      rw [hdot, List.nil_append]

theorem relPath_suffix (hf : f.Visited) (hplain : f.Plain) :
    ∃ stem ext, f.relPath = stem ++ '.' :: ext ∧ ':' ∉ ext := by
  obtain ⟨front, hfront⟩ := intercalate_last f.path_ne
  have hsupported : ∀ s ∈ supportedExts, s ≠ [] ∧ ':' ∉ s := by decide
  obtain ⟨hne, hcolon⟩ := hsupported _ hf.2
  unfold File.suffix splitName at hne hcolon
  cases hdot : atLastDot f.name with
  | none =>
    rw [hdot] at hne
    exact absurd rfl hne
  | some parts =>
    rw [hdot] at hne hcolon
    simp only at hne hcolon
    split_ifs at hne hcolon
    · refine ⟨front ++ parts.1, parts.2, ?_, fun hmem => hcolon (List.mem_cons_of_mem _ hmem)⟩
      rw [relPath_plain hplain, hfront, List.append_assoc, ← eq_of_atLastDot hdot]
      rfl
    · exact absurd rfl hne

theorem number_no_dot (n : ℕ) : '.' ∉ number n := by
  intro hmem
  have hdigit := Nat.isDigit_of_mem_toDigits (by decide) (by decide) (show '.' ∈ Nat.toDigits 10 n by simpa [number, Nat.repr] using hmem)
  exact absurd hdigit (by decide)

theorem id_of_generic (hc : c ∈ extractGenericChunks h f) :
    c.filePath = f.relPath ∧ ∃ rest, c.chunkId = f.relPath ++ ':' :: rest ∧ '.' ∉ rest := by
  obtain ⟨i, -, hi⟩ := List.mem_filterMap.mp hc
  simp only at hi
  split at hi
  · cases hi
  · obtain rfl := Option.some.inj hi
    exact ⟨rfl, _, rfl, number_no_dot _⟩

theorem id_of_mem (hc : c ∈ extractChunks h f) :
    c.filePath = f.relPath ∧ ∃ rest, c.chunkId = f.relPath ++ ':' :: rest ∧ '.' ∉ rest := by
  unfold extractChunks extractChunksFromPython at hc
  split_ifs at hc
  · simp only at hc
    split at hc
    · exact id_of_generic hc
    · rename_i tree hparse
      rcases List.mem_append.mp hc with hc | hc
      · unfold moduleChunk at hc
        split_ifs at hc
        · exact absurd hc List.not_mem_nil
        · obtain rfl := List.mem_singleton.mp hc
          exact ⟨rfl, "module".toList, rfl, by decide⟩
      · obtain ⟨n, hn, rfl⟩ := List.mem_map.mp hc
        refine ⟨rfl, _, rfl, fun hdot => ?_⟩
        rcases List.mem_append.mp hdot with hdot | hdot
        · exact h.parse_names _ _ hparse n hn hdot
        · rcases List.mem_cons.mp hdot with hdot | hdot
          · exact absurd hdot (by decide)
          · exact number_no_dot _ hdot
  · exact id_of_generic hc

theorem relPath_ne {r r' : Text} (hg : g.Visited) (hplain : g.Plain) (hr : '.' ∉ r)
    (heq : f.relPath ++ ':' :: r = g.relPath ++ ':' :: r') : g.relPath.length ≤ f.relPath.length := by
  by_contra hlt
  obtain ⟨stem, ext, hext, hcolon⟩ := relPath_suffix hg hplain
  rcases List.append_eq_append_iff.mp heq with ⟨mid, hmid, hrest⟩ | ⟨mid, hmid, hrest⟩
  · cases mid with
    | nil =>
      rw [hmid, List.append_nil] at hlt
      exact hlt le_rfl
    | cons d mid =>
      obtain ⟨rfl, rfl⟩ := List.cons.inj hrest
      rw [hmid] at hext
      rcases List.append_eq_append_iff.mp hext with ⟨a, -, ha⟩ | ⟨a, -, ha⟩
      · have hmem : '.' ∈ ':' :: mid := by rw [ha]; simp
        rcases List.mem_cons.mp hmem with hmem | hmem
        · exact absurd hmem (by decide)
        · exact hr (List.mem_append_left _ hmem)
      · have hmem : ':' ∈ '.' :: ext := by rw [ha]; simp
        rcases List.mem_cons.mp hmem with hmem | hmem
        · exact absurd hmem (by decide)
        · exact hcolon hmem
  · rw [hmid, List.length_append] at hlt
    omega

theorem id_ne {c' : CodeChunk} (hf : f.Visited) (hplain : f.Plain) (hg : g.Visited) (hplain' : g.Plain)
    (hc : c ∈ extractChunks h f) (hc' : c' ∈ extractChunks h g) (hid : c.chunkId = c'.chunkId) :
    f.relPath = g.relPath := by
  obtain ⟨-, r, hr, hdot⟩ := id_of_mem hc
  obtain ⟨-, r', hr', hdot'⟩ := id_of_mem hc'
  rw [hr, hr'] at hid
  have hle := relPath_ne hg hplain' hdot hid
  have hle' := relPath_ne hf hplain hdot' hid.symm
  exact (List.append_inj hid (by omega)).1

/-! ### What a file leaves in the tables -/

section Replace
variable {ρ κ : Type} [DecidableEq κ] {key : ρ → κ} {t rs : List ρ} {r r' : ρ}

theorem mem_insertOrReplace : r' ∈ insertOrReplace key t r ↔ r' ∈ t ∧ key r' ≠ key r ∨ r' = r := by
  unfold insertOrReplace
  rw [List.mem_append, mem_deleteWhere, List.mem_singleton]

theorem mem_insertAll : r' ∈ rs.foldl (insertOrReplace key) t ↔
    r' ∈ t ∧ (∀ r ∈ rs, key r' ≠ key r) ∨ r' ∈ rs.foldl (insertOrReplace key) [] := by
  induction rs generalizing t with
  | nil => simp
  | cons r rs ih =>
    rw [List.foldl_cons, List.foldl_cons, ih, ih (t := insertOrReplace key [] r), mem_insertOrReplace,
      mem_insertOrReplace, List.forall_mem_cons]
    constructor
    · rintro (⟨⟨hr', hne⟩ | rfl, hall⟩ | hr')
      · exact Or.inl ⟨hr', hne, hall⟩
      · exact Or.inr (Or.inl ⟨Or.inr rfl, hall⟩)
      · exact Or.inr (Or.inr hr')
    · rintro (⟨hr', hne, hall⟩ | ⟨⟨hr', -⟩ | rfl, hall⟩ | hr')
      · exact Or.inl ⟨Or.inl ⟨hr', hne⟩, hall⟩
      · exact absurd hr' List.not_mem_nil
      · exact Or.inl ⟨Or.inr rfl, hall⟩
      · exact Or.inr hr'

theorem mem_of_insertAll (hr : r ∈ rs.foldl (insertOrReplace key) t) : r ∈ t ∨ r ∈ rs := by
  induction rs generalizing t with
  | nil => exact Or.inl hr
  | cons r' rs ih =>
    rcases ih hr with hr | hr
    · rcases mem_insertOrReplace.mp hr with ⟨hr, -⟩ | rfl
      · exact Or.inl hr
      · exact Or.inr List.mem_cons_self
    · exact Or.inr (List.mem_cons_of_mem _ hr)

end Replace

def rows (h : Host D) (f : File) : List CodeChunk := (extractChunks h f).foldl (insertOrReplace CodeChunk.chunkId) []

/-- **The tables are those of a set of files**, one for each path. -/
structure Synced (h : Host D) (db : Db D) (files : Set File) : Prop where
  visited : ∀ f ∈ files, f.Visited ∧ f.Plain
  inj : ∀ f ∈ files, ∀ g ∈ files, f.path = g.path → f = g
  codeChunks : ∀ c, c ∈ db.codeChunks ↔ ∃ f ∈ files, c ∈ rows h f
  indexedFiles : ∀ r, r ∈ db.indexedFiles ↔ ∃ f ∈ files, r = (f.relPath, h.sha256 f.bytes)

variable {files : Set File}

theorem mem_of_rows (hc : c ∈ rows h f) : c ∈ extractChunks h f := (mem_of_insertAll hc).resolve_left List.not_mem_nil

theorem synced_empty (h : Host D) : Synced h {} ∅ := by
  refine ⟨fun _ hf => hf.elim, fun _ hf => hf.elim, fun c => ?_, fun r => ?_⟩
  · exact iff_of_false List.not_mem_nil fun ⟨_, hf, _⟩ => hf
  · exact iff_of_false List.not_mem_nil fun ⟨_, hf, _⟩ => hf

/-- **A file that is visited** takes the place of the one that was at its path. -/
theorem synced_indexFile (hs : Synced h db files) (hf : f.Visited) (hplain : f.Plain) :
    Synced h (indexFile h false db f) (insert f {g ∈ files | g.path ≠ f.path}) := by
  have hvisited : ∀ g ∈ insert f {g ∈ files | g.path ≠ f.path}, g.Visited ∧ g.Plain := by
    rintro g (rfl | ⟨hg, -⟩)
    · exact ⟨hf, hplain⟩
    · exact hs.visited g hg
  have hinj : ∀ g ∈ insert f {g ∈ files | g.path ≠ f.path}, ∀ g' ∈ insert f {g ∈ files | g.path ≠ f.path},
      g.path = g'.path → g = g' := by
    rintro g (rfl | ⟨hg, hne⟩) g' (rfl | ⟨hg', hne'⟩) heq
    · rfl
    · exact absurd heq.symm hne'
    · exact absurd heq hne
    · exact hs.inj g hg g' hg' heq
  have hrel : ∀ g ∈ files, g.relPath = f.relPath ↔ g.path = f.path := fun g hg =>
    ⟨path_of_relPath (hs.visited g hg).2 hplain, fun heq => by unfold File.relPath; rw [heq]⟩
  unfold indexFile
  rw [if_neg (not_not.mpr hf)]
  by_cases hskip : (lookup Prod.fst f.relPath db.indexedFiles).map Prod.snd = some (h.sha256 f.bytes)
  · -- the row of the file is there, and so is the file itself
    rw [if_pos ⟨Bool.false_ne_true, hskip⟩]
    obtain ⟨row, hrow, hhash⟩ := Option.map_eq_some_iff.mp hskip
    obtain ⟨g, hg, rfl⟩ := (hs.indexedFiles row).mp (mem_of_lookup hrow)
    have hkey := key_of_lookup hrow
    have hpath := (hrel g hg).mp hkey
    have hbytes := h.sha256_inj hhash
    obtain rfl : g = f := by
      cases g
      cases f
      cases hpath
      cases hbytes
      rfl
    have hsame : insert g {g' ∈ files | g'.path ≠ g.path} = files := by
      ext g'
      constructor
      · rintro (rfl | ⟨hg', -⟩)
        · exact hg
        · exact hg'
      · intro hg'
        by_cases heq : g'.path = g.path
        · exact Or.inl (hs.inj g' hg' g hg heq)
        · exact Or.inr ⟨hg', heq⟩
    rw [hsame]
    exact hs
  · rw [if_neg fun hboth => hskip hboth.2]
    refine ⟨hvisited, hinj, fun c => ?_, fun r => ?_⟩
    · rw [mem_insertAll, mem_deleteWhere, hs.codeChunks]
      constructor
      · rintro (⟨⟨⟨g, hg, hc⟩, hne⟩, -⟩ | hc)
        · rw [(id_of_mem (mem_of_rows hc)).1, hrel g hg] at hne
          exact ⟨g, Or.inr ⟨hg, hne⟩, hc⟩
        · exact ⟨f, Or.inl rfl, hc⟩
      · rintro ⟨g, rfl | ⟨hg, hne⟩, hc⟩
        · exact Or.inr hc
        · have hchunk := mem_of_rows hc
          refine Or.inl ⟨⟨⟨g, hg, hc⟩, ?_⟩, fun c' hc' hid => ?_⟩
          · rwa [(id_of_mem hchunk).1, hrel g hg]
          · have hv := hs.visited g hg
            exact hne ((hrel g hg).mp (id_ne hv.1 hv.2 hf hplain hchunk hc' hid))
    · rw [mem_insertOrReplace, hs.indexedFiles]
      constructor
      · rintro (⟨⟨g, hg, rfl⟩, hne⟩ | rfl)
        · exact ⟨g, Or.inr ⟨hg, fun heq => hne ((hrel g hg).mpr heq)⟩, rfl⟩
        · exact ⟨f, Or.inl rfl, rfl⟩
      · rintro ⟨g, rfl | ⟨hg, hne⟩, rfl⟩
        · exact Or.inr rfl
        · exact Or.inl ⟨⟨g, hg, rfl⟩, fun heq => hne ((hrel g hg).mp heq)⟩

/-- **The walk** leaves the files that it comes to, and those that it does not replace. -/
theorem synced_files {l : List File} (hs : Synced h db files) (hplain : ∀ f ∈ l, f.Visited → f.Plain)
    (hnodup : (l.map File.path).Nodup) : Synced h (l.foldl (indexFile h false) db)
      {g | (g ∈ l ∧ g.Visited) ∨ g ∈ files ∧ ∀ f ∈ l, f.Visited → g.path ≠ f.path} := by
  induction l generalizing db files with
  | nil =>
    have hsame : {g | (g ∈ ([] : List File) ∧ g.Visited) ∨ g ∈ files ∧ ∀ f ∈ ([] : List File), f.Visited →
        g.path ≠ f.path} = files := by
      ext g
      simp
    rw [hsame]
    exact hs
  | cons f l ih =>
    obtain ⟨hfirst, hplain⟩ := List.forall_mem_cons.mp hplain
    rw [List.map_cons, List.nodup_cons] at hnodup
    have hother : ∀ g ∈ l, f.path ≠ g.path := fun g hg heq => hnodup.1 (heq ▸ List.mem_map_of_mem hg)
    rw [List.foldl_cons]
    by_cases hf : f.Visited
    · have hrest := ih (synced_indexFile hs hf (hfirst hf)) hplain hnodup.2
      refine (congrArg (Synced h _) ?_).mp hrest
      ext g
      simp only [Set.mem_ofPred_eq, Set.mem_insert_iff, List.mem_cons]
      constructor
      · rintro (⟨hg, hv⟩ | ⟨rfl | ⟨hg, hne⟩, hall⟩)
        · exact Or.inl ⟨Or.inr hg, hv⟩
        · exact Or.inl ⟨Or.inl rfl, hf⟩
        · refine Or.inr ⟨hg, ?_⟩
          rintro f' (rfl | hf') hv
          · exact hne
          · exact hall f' hf' hv
      · rintro (⟨rfl | hg, hv⟩ | ⟨hg, hall⟩)
        · exact Or.inr ⟨Or.inl rfl, fun g' hg' _ => hother g' hg'⟩
        · exact Or.inl ⟨hg, hv⟩
        · exact Or.inr ⟨Or.inr ⟨hg, hall f (Or.inl rfl) hf⟩, fun f' hf' => hall f' (Or.inr hf')⟩
    · have hskip : indexFile h false db f = db := if_pos hf
      have hrest := ih hs hplain hnodup.2
      rw [hskip]
      refine (congrArg (Synced h _) ?_).mp hrest
      ext g
      simp only [Set.mem_ofPred_eq, List.mem_cons]
      constructor
      · rintro (⟨hg, hv⟩ | ⟨hg, hall⟩)
        · exact Or.inl ⟨Or.inr hg, hv⟩
        · refine Or.inr ⟨hg, ?_⟩
          rintro f' (rfl | hf') hv
          · exact absurd hv hf
          · exact hall f' hf' hv
      · rintro (⟨rfl | hg, hv⟩ | ⟨hg, hall⟩)
        · exact absurd hv hf
        · exact Or.inl ⟨hg, hv⟩
        · exact Or.inr ⟨hg, fun f' hf' => hall f' (Or.inr hf')⟩

/-! ### Calls -/

variable {ws : Workspace} {calls : List Workspace}

def Workspace.visited (ws : Workspace) : Set File := {f | f ∈ ws.files ∧ f.Visited}

theorem synced_indexWorkspace (hs : Synced h db files) (hplain : ∀ f ∈ ws.files, f.Visited → f.Plain)
    (hkept : ∀ f ∈ files, ∃ g ∈ ws.visited, g.path = f.path) :
    Synced h (indexWorkspace h false db ws) ws.visited := by
  refine (congrArg (Synced h _) ?_).mp (synced_files hs hplain ws.nodup)
  ext g
  constructor
  · rintro (hg | ⟨hg, hall⟩)
    · exact hg
    · obtain ⟨f, ⟨hf, hv⟩, heq⟩ := hkept g hg
      exact absurd heq.symm (hall f hf hv)
  · exact Or.inl

theorem indexed_snoc (calls : List Workspace) (ws : Workspace) :
    indexed h (calls ++ [ws]) = indexWorkspace h false (indexed h calls) ws := by
  unfold indexed
  rw [run_append]
  rfl

theorem synced_indexed (hkept : Lawful Kept (calls ++ [ws])) : Synced h (indexed h (calls ++ [ws])) ws.visited := by
  induction calls using List.reverseRecOn generalizing ws with
  | nil =>
    have hlast := (lawful_snoc.mp hkept).2
    rw [indexed_snoc]
    exact synced_indexWorkspace (synced_empty h) hlast.1 fun f hf => hf.elim
  | append_singleton cs w ih =>
    obtain ⟨hbefore, hlast⟩ := lawful_snoc.mp hkept
    rw [indexed_snoc]
    refine synced_indexWorkspace (ih hbefore) hlast.1 fun f hf => ?_
    obtain ⟨g, hg, hv, heq⟩ := hlast.2 w (List.mem_append_right _ (List.mem_singleton_self _)) f hf.1 hf.2
    exact ⟨g, ⟨hg, hv⟩, heq⟩

/-- **Incremental indexing equals a rebuild** after every call, as long as the files that were indexed stay there. -/
theorem in_sync (h : Host D) (calls : List Workspace) (hkept : Lawful Kept calls) :
    Lawful (fun before ws => InSync h (indexed h (before ++ [ws])) ws) calls := by
  rintro before ws after rfl
  have hbefore : Lawful Kept (before ++ [ws]) := by
    rw [List.append_cons] at hkept
    exact hkept.of_append
  have hs := synced_indexed (h := h) hbefore
  have hfresh := synced_indexWorkspace (synced_empty h) (lawful_snoc.mp hbefore).2.1 fun f hf => hf.elim
  refine ⟨fun c => ?_, fun r => ?_, fun c hc => ?_⟩
  · rw [hs.codeChunks, hfresh.codeChunks]
  · rw [hs.indexedFiles, hfresh.indexedFiles]
  · obtain ⟨f, hf, hmem⟩ := (hs.codeChunks c).mp hc
    exact ⟨f, hf.1, hf.2, mem_of_rows hmem⟩

/-- Contents are their own digests, nothing is Python, and words of two letters and more are the tokens. -/
def plainHost : Host (List UInt8) where
  sha256 := id
  parse _ := none
  tokenize text := (text.splitOnP fun c => !c.isLower).filter (1 < ·.length)
  symbol _ := none
  sha256_inj := Function.injective_id
  parse_names _ _ hparse := nomatch hparse

def note : File := ⟨["ab.md".toList], [97, 98], by decide, by decide⟩

def written : Workspace := ⟨[note], by decide⟩

def deleted : Workspace := ⟨[], List.nodup_nil⟩

/-- A file is written, and indexed again after a second call. -/
theorem in_sync_written : InSync plainHost (indexed plainHost [written, written]) written := by
  have hkept : Lawful Kept [written, written] := by
    have hplain : ∀ f ∈ written.files, f.Plain := by simp [written, note, File.Plain]
    refine (lawful_snoc (l := [written])).mpr ⟨(lawful_snoc (l := [])).mpr ⟨lawful_nil, ?_⟩, ?_⟩
    · exact ⟨fun f hf _ => hplain f hf, fun _ hw => absurd hw List.not_mem_nil⟩
    · refine ⟨fun f hf _ => hplain f hf, fun w hw f hf hv => ?_⟩
      obtain rfl := List.mem_singleton.mp hw
      exact ⟨f, hf, hv, rfl⟩
  exact in_sync plainHost [written, written] hkept [written] written [] rfl

/-- A file is written, indexed and deleted: its rows stay. -/
theorem deleted_stays : ¬ ∀ (h : Host (List UInt8)) (calls : List Workspace),
    Lawful (fun before ws => InSync h (indexed h (before ++ [ws])) ws) calls := by
  intro hall
  have hsync := hall plainHost [written, deleted] [written] deleted [] rfl
  have hrow := (hsync.indexedFiles ("ab.md".toList, [97, 98])).mp (by decide)
  exact absurd hrow List.not_mem_nil

end Smara.Search.Index
