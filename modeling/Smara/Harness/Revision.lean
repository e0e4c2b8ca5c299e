import Mathlib.Data.List.Dedup
import Mathlib.Data.List.Sort
import Mathlib.Data.String.Basic

/-! # The revision of a workspace

`workspace_revision` hashes the files of a workspace as `os.walk` comes to them: in each directory by name, but
the directories in the order in which the file system lists them. So workspaces with the same files have the
same revision exactly when their walks come to the directories that hold files in the same order
(`revision_iff`). -/

namespace Smara.Harness.Revision

abbrev Name := { s : String // s ≠ "" ∧ '/' ∉ s.toList }

abbrev Path := List Name

abbrev Bytes := List UInt8

/-- A directory, as the file system lists it: its files, each with what it holds if that can be read, and the
directories below it. -/
inductive Dir
  | node (files : List (Name × Option Bytes)) (dirs : List (Name × Dir))

/-- `ignored`, and what `workspace_revision` passes over besides -/
def ignored (name : Name) : Bool :=
  name.1 ∈ [".git", ".smara", ".smara-undo", ".worktrees", "__pycache__", ".pytest_cache", ".pytest-cache",
    ".pytest-tmp", ".pytest-localtemp", ".pytest-audit-temp", "pytest-tmp", "tests_tmp", "my_pytest_tmp",
    "node_modules", ".venv", "venv", "dist", "build", "target", "artifacts", ".idea", ".vscode", "release"] ||
  ".pytest".toList.isPrefixOf name.1.toList

/-- `dirpath` and `filenames` of one turn of the loop, with what the files hold. -/
structure Visit where
  path : Path
  files : List (Name × Option Bytes)

mutual

/-- `os.walk` from a directory on, without the directories that are ignored -/
def walk (path : Path) : Dir → List Visit
  | .node files dirs => ⟨path, files⟩ :: walkAll path dirs

/-- `os.walk` through the directories below one -/
def walkAll (path : Path) : List (Name × Dir) → List Visit
  | [] => []
  | (name, d) :: dirs => (if ignored name then [] else walk (path ++ [name]) d) ++ walkAll path dirs

end

mutual

def Dir.Sound : Dir → Prop
  | .node files dirs => (files.map Prod.fst).Nodup ∧ (dirs.map Prod.fst).Nodup ∧ AllSound dirs

/-- So it is in the directories. -/
def AllSound : List (Name × Dir) → Prop
  | [] => True
  | (_, d) :: dirs => d.Sound ∧ AllSound dirs

end

def sortedFiles (files : List (Name × Option Bytes)) : List (Name × Option Bytes) :=
  files.insertionSort fun a b => a.1.1 ≤ b.1.1

def Visit.entries (v : Visit) : List (Path × Option Bytes) :=
  (sortedFiles v.files).map fun f => (v.path ++ [f.1], f.2)

/-- `p.relative_to(root_path).as_posix()` -/
def posix (path : Path) : String := String.ofList (['/'].intercalate (path.map fun name => name.1.toList))

/-- `str.encode()` -/
def encode (s : String) : Bytes := s.toByteArray.data.toList

/-- `n.to_bytes(4, "big")`, of a number that has four bytes -/
def toBytes (n : ℕ) : Bytes := [n / 2 ^ 24, n / 2 ^ 16, n / 2 ^ 8, n].map UInt8.ofNat

/-- A workspace. The file system has no paths of four gigabytes. -/
structure Workspace where
  root : Dir
  sound : root.Sound
  short : ∀ v ∈ walk [] root, ∀ f ∈ v.entries, (encode (posix f.1)).length < 2 ^ 32

/-- The files in the order in which they are hashed. -/
def walked (w : Workspace) : List (Path × Option Bytes) := (walk [] w.root).flatMap Visit.entries

/-- What the loop adds for a file; `sha` is SHA-256. -/
def record (sha : Bytes → Bytes) (f : Path × Option Bytes) : Bytes :=
  toBytes (encode (posix f.1)).length ++ (encode (posix f.1) ++ (f.2.map sha).getD [])

def stream (sha : Bytes → Bytes) (w : Workspace) : Bytes := (walked w).flatMap (record sha)

def workspaceRevision (sha : Bytes → Bytes) (w : Workspace) : Bytes := sha (stream sha w)

def contents (w : Workspace) : Set (Path × Option Bytes) := { f | f ∈ walked w }

def visited (w : Workspace) : List Path :=
  ((walk [] w.root).filter fun v => v.files ≠ []).map Visit.path

/-! ## The walk -/

mutual

theorem walk_paths (path : Path) : ∀ d : Dir, d.Sound →
    ((walk path d).map Visit.path).Nodup ∧ (∀ v ∈ walk path d, path <+: v.path) ∧
      ∀ v ∈ walk path d, (v.files.map Prod.fst).Nodup
  | .node files dirs, h => by
    obtain ⟨hfiles, hdirs, hall⟩ := h
    obtain ⟨hnodup, hbelow, hnames⟩ := walkAll_paths path dirs hdirs hall
    rw [walk]
    refine ⟨?_, ?_, ?_⟩
    · refine List.nodup_cons.mpr ⟨fun hmem => ?_, hnodup⟩
      obtain ⟨v, hv, hpath⟩ := List.mem_map.mp hmem
      obtain ⟨name, -, hprefix⟩ := hbelow v hv
      have hpath : v.path = path := hpath
      have := hprefix.length_le
      rw [hpath, List.length_append, List.length_singleton] at this
      omega
    · intro v hv
      rcases List.mem_cons.mp hv with rfl | hv
      · exact List.prefix_rfl
      · obtain ⟨name, -, hprefix⟩ := hbelow v hv
        exact (List.prefix_append path [name]).trans hprefix
    · intro v hv
      rcases List.mem_cons.mp hv with rfl | hv
      · exact hfiles
      · exact hnames v hv

theorem walkAll_paths (path : Path) : ∀ dirs : List (Name × Dir), (dirs.map Prod.fst).Nodup → AllSound dirs →
    ((walkAll path dirs).map Visit.path).Nodup ∧
      (∀ v ∈ walkAll path dirs, ∃ name ∈ dirs.map Prod.fst, path ++ [name] <+: v.path) ∧
      ∀ v ∈ walkAll path dirs, (v.files.map Prod.fst).Nodup
  | [], _, _ => by simp [walkAll]
  | (name, d) :: dirs, hnodup, hall => by
    obtain ⟨hname, hdirs⟩ := List.nodup_cons.mp hnodup
    obtain ⟨hnodupRest, hbelowRest, hnamesRest⟩ := walkAll_paths path dirs hdirs hall.2
    rw [walkAll]
    split_ifs with hignored
    · refine ⟨hnodupRest, fun v hv => ?_, hnamesRest⟩
      obtain ⟨n, hn, hprefix⟩ := hbelowRest v hv
      exact ⟨n, List.mem_cons_of_mem _ hn, hprefix⟩
    · obtain ⟨hnodupHere, hbelowHere, hnamesHere⟩ := walk_paths (path ++ [name]) d hall.1
      refine ⟨?_, ?_, ?_⟩
      · rw [List.map_append]
        refine List.Nodup.append hnodupHere hnodupRest ?_
        intro p hp hp'
        obtain ⟨v, hv, rfl⟩ := List.mem_map.mp hp
        obtain ⟨v', hv', hpath⟩ := List.mem_map.mp hp'
        obtain ⟨n, hn, hprefix⟩ := hbelowRest v' hv'
        rw [hpath] at hprefix
        -- two names behind the same path
        have heq := (List.prefix_of_prefix_length_le (hbelowHere v hv) hprefix (by simp)).eq_of_length (by simp)
        obtain rfl : name = n := by simpa using heq
        exact hname hn
      · intro v hv
        rcases List.mem_append.mp hv with hv | hv
        · exact ⟨name, List.mem_cons_self, hbelowHere v hv⟩
        · obtain ⟨n, hn, hprefix⟩ := hbelowRest v hv
          exact ⟨n, List.mem_cons_of_mem _ hn, hprefix⟩
      · intro v hv
        rcases List.mem_append.mp hv with hv | hv
        · exact hnamesHere v hv
        · exact hnamesRest v hv

end

theorem Workspace.paths (w : Workspace) : ((walk [] w.root).map Visit.path).Nodup ∧
    ∀ v ∈ walk [] w.root, (v.files.map Prod.fst).Nodup := by
  obtain ⟨hnodup, -, hnames⟩ := walk_paths [] w.root w.sound
  exact ⟨hnodup, hnames⟩

theorem mem_entries {v : Visit} {f : Path × Option Bytes} :
    f ∈ v.entries ↔ ∃ name, (name, f.2) ∈ v.files ∧ f.1 = v.path ++ [name] := by
  obtain ⟨p, c⟩ := f
  simp only [Visit.entries, sortedFiles, List.mem_map, List.mem_insertionSort, Prod.mk.injEq]
  constructor
  · rintro ⟨⟨name, c'⟩, hmem, rfl, rfl⟩
    exact ⟨name, hmem, rfl⟩
  · rintro ⟨name, hmem, rfl⟩
    exact ⟨(name, c), hmem, rfl, rfl⟩

theorem mem_walked {w : Workspace} {f : Path × Option Bytes} :
    f ∈ walked w ↔ ∃ v ∈ walk [] w.root, ∃ name, (name, f.2) ∈ v.files ∧ f.1 = v.path ++ [name] := by
  simp only [walked, List.mem_flatMap, mem_entries]

theorem mem_files {w : Workspace} {v : Visit} (hv : v ∈ walk [] w.root) {name : Name} {c : Option Bytes} :
    (name, c) ∈ v.files ↔ (v.path ++ [name], c) ∈ contents w := by
  constructor
  · intro h
    exact mem_walked.mpr ⟨v, hv, name, h, rfl⟩
  · intro h
    obtain ⟨v', hv', name', hmem, hpath⟩ := mem_walked.mp h
    obtain ⟨hpath, hname⟩ := List.append_inj' hpath rfl
    obtain rfl := List.inj_on_of_nodup_map w.paths.1 hv hv' hpath
    obtain rfl := List.singleton_inj.mp hname
    exact hmem

theorem contents_unique {w : Workspace} {p : Path} {c c' : Option Bytes} (h : (p, c) ∈ contents w)
    (h' : (p, c') ∈ contents w) : c = c' := by
  obtain ⟨v, hv, name, hmem, rfl⟩ := mem_walked.mp h
  have hmem' := (mem_files hv).mpr h'
  have := List.inj_on_of_nodup_map (w.paths.2 v hv) hmem hmem' rfl
  exact congrArg Prod.snd this

theorem sortedFiles_eq {files files' : List (Name × Option Bytes)} (h : (files.map Prod.fst).Nodup)
    (h' : (files'.map Prod.fst).Nodup) (hsame : ∀ f, f ∈ files ↔ f ∈ files') :
    sortedFiles files = sortedFiles files' := by
  let le (a b : Name × Option Bytes) : Prop := a.1.1 ≤ b.1.1
  have : Std.Total le := ⟨fun a b => le_total a.1.1 b.1.1⟩
  have : IsTrans _ le := ⟨fun a b c => le_trans (a := a.1.1)⟩
  have hperm : files.Perm files' :=
    (List.perm_ext_iff_of_nodup (h.of_map _) (h'.of_map _)).mpr hsame
  have hsorted : (sortedFiles files).Perm (sortedFiles files') :=
    (List.perm_insertionSort _ files).trans (hperm.trans (List.perm_insertionSort _ files').symm)
  have hpairwise : (sortedFiles files).Pairwise le := List.pairwise_insertionSort le files
  have hpairwise' : (sortedFiles files').Pairwise le := List.pairwise_insertionSort le files'
  refine hsorted.eq_of_pairwise (fun a b ha hb hab hba => ?_) hpairwise hpairwise'
  have hb' : b ∈ files := (hsame b).mpr ((List.mem_insertionSort _).mp hb)
  exact List.inj_on_of_nodup_map h ((List.mem_insertionSort _).mp ha) hb' (Subtype.ext (le_antisymm hab hba))

/-! ## What the walk comes to -/

theorem flatMap_filter_entries (visits : List Visit) :
    (visits.filter fun v => v.files ≠ []).flatMap Visit.entries = visits.flatMap Visit.entries := by
  induction visits with
  | nil => rfl
  | cons v visits ih =>
    by_cases h : v.files = []
    · have hnone : v.entries = [] := by simp [Visit.entries, sortedFiles, h]
      simpa [h, hnone] using ih
    · simpa [h] using ih

theorem flatMap_congr_path {visits visits' : List Visit} (h : visits.map Visit.path = visits'.map Visit.path)
    (hsame : ∀ v ∈ visits, ∀ v' ∈ visits', v.path = v'.path → v.entries = v'.entries) :
    visits.flatMap Visit.entries = visits'.flatMap Visit.entries := by
  induction visits generalizing visits' with
  | nil =>
    obtain rfl := List.map_eq_nil_iff.mp h.symm
    rfl
  | cons v visits ih =>
    obtain ⟨v', rest, rfl, hpath, hrest⟩ := List.map_eq_cons_iff.mp h.symm
    rw [List.flatMap_cons, List.flatMap_cons, hsame v List.mem_cons_self v' List.mem_cons_self hpath.symm]
    exact congrArg (v'.entries ++ ·) (ih hrest.symm fun u hu u' hu' =>
      hsame u (List.mem_cons_of_mem _ hu) u' (List.mem_cons_of_mem _ hu'))

theorem walked_eq {w w' : Workspace} (hsame : contents w = contents w') (h : visited w = visited w') :
    walked w = walked w' := by
  rw [walked, walked, ← flatMap_filter_entries, ← flatMap_filter_entries (walk [] w'.root)]
  refine flatMap_congr_path h fun v hv v' hv' hpath => ?_
  have hv := (List.mem_filter.mp hv).1
  have hv' := (List.mem_filter.mp hv').1
  have hfiles : ∀ f, f ∈ v.files ↔ f ∈ v'.files := by
    rintro ⟨name, c⟩
    rw [mem_files hv, mem_files hv', hpath, hsame]
  rw [Visit.entries, Visit.entries, hpath, sortedFiles_eq (w.paths.2 v hv) (w'.paths.2 v' hv') hfiles]

theorem entries_dirs (v : Visit) :
    (v.entries.map fun f => f.1.dropLast) = List.replicate v.files.length v.path := by
  rw [List.eq_replicate_iff]
  refine ⟨by simp [Visit.entries, sortedFiles], fun p hp => ?_⟩
  obtain ⟨f, hf, rfl⟩ := List.mem_map.mp hp
  obtain ⟨name, -, hpath⟩ := mem_entries.mp hf
  rw [hpath, List.dropLast_concat]

theorem dedup_dirs {visits : List Visit} (h : (visits.map Visit.path).Nodup) :
    ((visits.flatMap Visit.entries).map fun f => f.1.dropLast).dedup =
      (visits.filter fun v => v.files ≠ []).map Visit.path := by
  induction visits with
  | nil => rfl
  | cons v visits ih =>
    obtain ⟨hpath, hrest⟩ := List.nodup_cons.mp h
    rw [List.flatMap_cons, List.map_append, entries_dirs]
    by_cases hnone : v.files = []
    · simpa [hnone] using ih hrest
    · have hpos : v.files.length ≠ 0 := fun hzero => hnone (List.length_eq_zero_iff.mp hzero)
      have hdisjoint : List.Disjoint (List.replicate v.files.length v.path)
          ((visits.flatMap Visit.entries).map fun f => f.1.dropLast) := by
        intro p hp hp'
        obtain rfl := List.eq_of_mem_replicate hp
        obtain ⟨f, hf, hdir⟩ := List.mem_map.mp hp'
        obtain ⟨u, hu, hf⟩ := List.mem_flatMap.mp hf
        obtain ⟨name, -, hfpath⟩ := mem_entries.mp hf
        rw [hfpath, List.dropLast_concat] at hdir
        exact hpath (hdir ▸ List.mem_map_of_mem hu)
      rw [hdisjoint.dedup_append, List.replicate_dedup hpos, ih hrest]
      simp [hnone]

theorem visited_eq (w : Workspace) : visited w = ((walked w).map fun f => f.1.dropLast).dedup :=
  (dedup_dirs w.paths.1).symm

/-! ## What is hashed -/

theorem posix_inj {p q : Path} (hp : p ≠ []) (hq : q ≠ []) (h : posix p = posix q) : p = q := by
  have hchars : ['/'].intercalate (p.map fun name => name.1.toList) =
      ['/'].intercalate (q.map fun name => name.1.toList) := by
    have := congrArg String.toList h
    rwa [posix, posix, String.toList_ofList, String.toList_ofList] at this
  have hsplit : ∀ r : Path, r ≠ [] → (['/'].intercalate (r.map fun name => name.1.toList)).splitOn '/' =
      r.map fun name => name.1.toList := by
    intro r hr
    refine List.splitOn_intercalate '/' (fun l hl => ?_) (fun hnone => hr (List.map_eq_nil_iff.mp hnone))
    obtain ⟨name, -, rfl⟩ := List.mem_map.mp hl
    exact name.2.2
  have hnames : Function.Injective fun name : Name => name.1.toList :=
    fun m n h => Subtype.ext (String.toList_injective h)
  have hmap := congrArg (List.splitOn '/') hchars
  rw [hsplit p hp, hsplit q hq] at hmap
  exact List.map_injective_iff.mpr hnames hmap

theorem encode_injective : Function.Injective encode := by
  intro s t h
  have harray : s.toByteArray.data = t.toByteArray.data := Array.toList_inj.mp h
  exact String.toByteArray_inj.mp (ByteArray.ext harray)

theorem toBytes_inj {m n : ℕ} (hm : m < 2 ^ 32) (hn : n < 2 ^ 32) (h : toBytes m = toBytes n) : m = n := by
  simp only [toBytes, List.map_cons, List.map_nil, List.cons.injEq, and_true] at h
  obtain ⟨h1, h2, h3, h4⟩ := h
  have h1 := congrArg UInt8.toNat h1
  have h2 := congrArg UInt8.toNat h2
  have h3 := congrArg UInt8.toNat h3
  have h4 := congrArg UInt8.toNat h4
  simp only [UInt8.toNat_ofNat'] at h1 h2 h3 h4
  omega

theorem flatMap_injOn {α : Type*} {code : α → Bytes} {S : Set α} (hne : ∀ a, code a ≠ [])
    (hcode : ∀ a ∈ S, ∀ b ∈ S, ∀ s t, code a ++ s = code b ++ t → a = b) {xs ys : List α} (hxs : ∀ x ∈ xs, x ∈ S)
    (hys : ∀ y ∈ ys, y ∈ S) (h : xs.flatMap code = ys.flatMap code) : xs = ys := by
  induction xs generalizing ys with
  | nil =>
    cases ys with
    | nil => rfl
    | cons y ys =>
      obtain ⟨hy, -⟩ := List.append_eq_nil_iff.mp h.symm
      exact absurd hy (hne y)
  | cons x xs ih =>
    cases ys with
    | nil =>
      obtain ⟨hx, -⟩ := List.append_eq_nil_iff.mp h
      exact absurd hx (hne x)
    | cons y ys =>
      rw [List.flatMap_cons, List.flatMap_cons] at h
      obtain rfl := hcode x (hxs x List.mem_cons_self) y (hys y List.mem_cons_self) _ _ h
      rw [ih (fun z hz => hxs z (List.mem_cons_of_mem _ hz)) (fun z hz => hys z (List.mem_cons_of_mem _ hz))
        (List.append_cancel_left h)]

section Records
variable {sha : Bytes → Bytes}

theorem record_ne_nil (f : Path × Option Bytes) : record sha f ≠ [] := by simp [record, toBytes]

theorem short_of_mem {w : Workspace} {f : Path × Option Bytes} (h : f ∈ walked w) :
    (encode (posix f.1)).length < 2 ^ 32 ∧ f.1 ≠ [] := by
  obtain ⟨v, hv, hf⟩ := List.mem_flatMap.mp h
  obtain ⟨name, -, hpath⟩ := mem_entries.mp hf
  exact ⟨w.short v hv f hf, by simp [hpath]⟩

theorem path_of_record {w w' : Workspace} {f f' : Path × Option Bytes} (hf : f ∈ walked w) (hf' : f' ∈ walked w')
    {s t : Bytes} (h : record sha f ++ s = record sha f' ++ t) :
    f.1 = f'.1 ∧ (f.2.map sha).getD [] ++ s = (f'.2.map sha).getD [] ++ t := by
  obtain ⟨hshort, hne⟩ := short_of_mem hf
  obtain ⟨hshort', hne'⟩ := short_of_mem hf'
  simp only [record, List.append_assoc] at h
  obtain ⟨hbytes, h⟩ := List.append_inj h rfl
  have hlength := toBytes_inj hshort hshort' hbytes
  obtain ⟨hpath, h⟩ := List.append_inj h hlength
  exact ⟨posix_inj hne hne' (encode_injective hpath), h⟩

theorem walked_eq_of_stream {w w' : Workspace} (hsame : contents w = contents w')
    (h : stream sha w = stream sha w') : walked w = walked w' := by
  refine flatMap_injOn (S := contents w) record_ne_nil (fun f hf f' hf' s t heq => ?_) (fun f hf => hf)
    (fun f hf => hsame ▸ hf) h
  obtain ⟨hpath, -⟩ := path_of_record hf hf' heq
  refine Prod.ext hpath (contents_unique (p := f.1) hf ?_)
  rw [hpath]
  exact hf'

def Readable (w : Workspace) : Prop := ∀ f ∈ contents w, f.2.isSome

def hashed (sha : Bytes → Bytes) (w : Workspace) : Set Bytes :=
  insert (stream sha w) { bytes | ∃ p, (p, some bytes) ∈ contents w }

theorem contents_eq_of_stream {w w' : Workspace} (hlength : ∀ bytes, (sha bytes).length = 32)
    (hsha : Set.InjOn sha (hashed sha w ∪ hashed sha w')) (hread : Readable w) (hread' : Readable w')
    (h : stream sha w = stream sha w') : contents w = contents w' := by
  have hin : ∀ f ∈ contents w ∪ contents w', (∃ u : Workspace, f ∈ walked u) ∧
      ∃ bytes ∈ hashed sha w ∪ hashed sha w', f.2 = some bytes := by
    rintro f (hf | hf)
    · obtain ⟨bytes, hbytes⟩ := Option.isSome_iff_exists.mp (hread f hf)
      exact ⟨⟨w, hf⟩, bytes, Or.inl (Or.inr ⟨f.1, hbytes ▸ hf⟩), hbytes⟩
    · obtain ⟨bytes, hbytes⟩ := Option.isSome_iff_exists.mp (hread' f hf)
      exact ⟨⟨w', hf⟩, bytes, Or.inr (Or.inr ⟨f.1, hbytes ▸ hf⟩), hbytes⟩
  have heq : walked w = walked w' := by
    refine flatMap_injOn (S := contents w ∪ contents w') record_ne_nil (fun f hf f' hf' s t heq => ?_)
      (fun f hf => Or.inl hf) (fun f hf => Or.inr hf) h
    obtain ⟨⟨u, hu⟩, bytes, hbytes, hfbytes⟩ := hin f hf
    obtain ⟨⟨u', hu'⟩, bytes', hbytes', hfbytes'⟩ := hin f' hf'
    obtain ⟨hpath, hrest⟩ := path_of_record hu hu' heq
    rw [hfbytes, hfbytes'] at hrest
    obtain ⟨hdigest, -⟩ := List.append_inj hrest ((hlength bytes).trans (hlength bytes').symm)
    exact Prod.ext hpath (by rw [hfbytes, hfbytes', hsha hbytes hbytes' hdigest])
  exact congrArg (fun l => { f | f ∈ l }) heq

/-- **Revisions.** Where SHA-256 tells apart what it is applied to, the revision of two workspaces is the same
for the same files, and another one for other files that can all be read, exactly when walks through the same
files come to the directories that hold files in the same order. -/
theorem revision_iff (w w' : Workspace) (hlength : ∀ bytes, (sha bytes).length = 32)
    (hsha : Set.InjOn sha (hashed sha w ∪ hashed sha w')) :
    (contents w = contents w' → workspaceRevision sha w = workspaceRevision sha w') ∧
        (Readable w → Readable w' → contents w ≠ contents w' →
          workspaceRevision sha w ≠ workspaceRevision sha w') ↔
      (contents w = contents w' → visited w = visited w') := by
  have hstream : workspaceRevision sha w = workspaceRevision sha w' → stream sha w = stream sha w' :=
    fun h => hsha (Or.inl (Or.inl rfl)) (Or.inr (Or.inl rfl)) h
  constructor
  · rintro ⟨h, -⟩ hsame
    rw [visited_eq, visited_eq, walked_eq_of_stream hsame (hstream (h hsame))]
  · intro h
    constructor
    · intro hsame
      rw [workspaceRevision, workspaceRevision, stream, stream, walked_eq hsame (h hsame)]
    · intro hread hread' hne heq
      exact hne (contents_eq_of_stream hlength hsha hread hread' (hstream heq))

end Records

/-! ## Two workspaces -/

def checksum (bytes : Bytes) : Bytes :=
  (List.range 32).map fun i => UInt8.ofNat (bytes.foldl (fun code b => code * 257 + b.toNat + 1) 0 / 256 ^ i)

/-- A directory with an empty file `f`. -/
def leaf : Dir := .node [(⟨"f", by decide⟩, some [])] []

/-- A workspace with the directories `a` and `b`, listed in this order. -/
def listedAB : Workspace where
  root := .node [] [(⟨"a", by decide⟩, leaf), (⟨"b", by decide⟩, leaf)]
  sound := by simp [leaf, Dir.Sound, AllSound]
  short := by decide

/-- The workspace with the directories in the other order. -/
def listedBA : Workspace where
  root := .node [] [(⟨"b", by decide⟩, leaf), (⟨"a", by decide⟩, leaf)]
  sound := by simp [leaf, Dir.Sound, AllSound]
  short := by decide

theorem checksum_length (bytes : Bytes) : (checksum bytes).length = 32 := by
  rw [checksum, List.length_map, List.length_range]

theorem contents_listed : contents listedAB = contents listedBA := by
  have hreverse : walked listedBA = (walked listedAB).reverse := by decide
  ext f
  simp only [contents, Set.mem_ofPred_eq, hreverse, List.mem_reverse]

theorem empty_of_listed {p : Path} {bytes : Bytes} (h : (p, some bytes) ∈ contents listedAB) : bytes = [] := by
  have hall : ∀ f ∈ walked listedAB, f.2 = some [] := by decide
  exact Option.some.inj (hall _ h)

theorem injOn_listed : Set.InjOn checksum (hashed checksum listedAB ∪ hashed checksum listedBA) := by
  have hsub : hashed checksum listedAB ∪ hashed checksum listedBA ⊆
      { bytes | bytes ∈ [stream checksum listedAB, stream checksum listedBA, []] } := by
    rintro bytes ((rfl | ⟨p, hp⟩) | (rfl | ⟨p, hp⟩))
    · simp
    · simp [empty_of_listed hp]
    · simp
    · simp [empty_of_listed (contents_listed ▸ hp)]
  have hinj : ∀ x ∈ [stream checksum listedAB, stream checksum listedBA, []],
      ∀ y ∈ [stream checksum listedAB, stream checksum listedBA, []], checksum x = checksum y → x = y := by
    decide +kernel
  exact fun x hx y hy => hinj x (hsub hx) y (hsub hy)

theorem revision_iff_listed :
    (contents listedAB = contents listedBA →
          workspaceRevision checksum listedAB = workspaceRevision checksum listedBA) ∧
        (Readable listedAB → Readable listedBA → contents listedAB ≠ contents listedBA →
          workspaceRevision checksum listedAB ≠ workspaceRevision checksum listedBA) ↔
      (contents listedAB = contents listedBA → visited listedAB = visited listedBA) :=
  revision_iff listedAB listedBA checksum_length injOn_listed

/-- The same directory, listed in two orders, has two revisions. -/
theorem revision_of_listing : ¬ ∀ (sha : Bytes → Bytes) (w w' : Workspace), (∀ bytes, (sha bytes).length = 32) →
    Set.InjOn sha (hashed sha w ∪ hashed sha w') → contents w = contents w' →
    workspaceRevision sha w = workspaceRevision sha w' := by
  intro h
  have := h checksum listedAB listedBA checksum_length injOn_listed contents_listed
  revert this
  decide +kernel

end Smara.Harness.Revision
