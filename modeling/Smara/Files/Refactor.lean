import Smara.Lib.FileTree
import Smara.Lib.Machine
import Smara.Lib.Table

/-! # Refactoring sessions

A session keeps, in a folder of its own under `.smara/snapshots`, a copy of every file that is staged, and for a file
that does not exist an empty one whose name ends in `.new_file`. A rollback walks this folder.

* `stageChange`, `commit`, `rollback`: the calls of a session.
* `Inv`: what is in the folder of the session, and what in the workspace is as it was.
* `rollback_restores`: the files are as before the session after every rollback, in a run that stages files as they were,
  and no names that the folder of the session cannot tell apart. -/

namespace Smara.Files.Refactor

open Lib.FileTree Lib.Machine Lib.Table

/-! ### Names -/

abbrev Bytes := List UInt8

/-- A part of a path that `resolve` leaves. -/
structure Name where
  text : String
  valid : text ≠ "" ∧ text ≠ "." ∧ text ≠ ".."
  deriving DecidableEq

abbrev Path := List Name

def newFile : String := ".new_file"

theorem valid_marker (text : String) : text ++ newFile ≠ "" ∧ text ++ newFile ≠ "." ∧ text ++ newFile ≠ ".." := by
  have hlong : ∀ other : String, other.length < 9 → text ++ newFile ≠ other := by
    rintro other hlt rfl
    rw [String.length_append] at hlt
    have hlen : newFile.length = 9 := by decide
    omega
  exact ⟨hlong "" (by decide), hlong "." (by decide), hlong ".." (by decide)⟩

/-- `f"{rel_path}.new_file"` -/
def marker (p : Path) : Path :=
  match p.getLast? with
  | some n => p.dropLast ++ [⟨n.text ++ newFile, valid_marker n.text⟩]
  | none => []

/-- `str(rel_path).endswith(".new_file")` -/
def Marked (p : Path) : Prop := ∃ n ∈ p.getLast?, newFile.toList <:+ n.text.toList

instance : DecidablePred Marked := fun p => inferInstanceAs (Decidable (∃ n ∈ p.getLast?, _))

/-- The path that is left of a marker: it may be the folder it is in, or the one above. -/
inductive Target
  | path (p : Path)
  | parent (p : Path)

/-- `Path(str(rel_path).removesuffix(".new_file"))` -/
def target (p : Path) : Target :=
  match p.getLast? with
  | none => .path []
  | some n =>
    let rest := String.ofList (n.text.toList.take (n.text.toList.length - 9))
    if h : rest ≠ "" ∧ rest ≠ "." ∧ rest ≠ ".." then .path (p.dropLast ++ [⟨rest, h⟩])
    else if rest = ".." then .parent p.dropLast
    else .path p.dropLast

/-! ### Sessions -/

abbrev Disk := Tree Name Bytes

def snapshots : Path := [⟨".smara", by decide⟩, ⟨"snapshots", by decide⟩]

structure Change where
  newContent : String
  syntaxValid : Bool

structure State where
  tree : Disk
  staged : List (Path × Change) := []
  committed : Bool := false

def State.keys (s : State) : List Path := s.staged.map Prod.fst

/-- `write_text(…, encoding="utf-8")` -/
def encode (text : String) : Bytes := text.toUTF8.toList

/-- `shutil.copy2` of a file of this name, which goes into a folder that is there. -/
def copyTo (c : Bytes) (p : Path) (t : Disk) : Option Disk :=
  if IsDir t p then
    match p.getLast? with
    | some n => if IsDir t (p ++ [n]) then none else some (put (p ++ [n]) (.file c) t)
    | none => none
  else some (put p (.file c) t)

section Session
variable (session : Path)

/-- `save_backup`: whether it returns, and the tree. -/
def saveBackup (p : Path) (t : Disk) : Bool × Disk :=
  match mkdirs (session ++ p).dropLast t with
  | none => (false, t)
  | some t =>
    match node t p with
    | some (.file c) =>
      match copyTo c (session ++ p) t with
      | some t => (true, t)
      | none => (false, t)
    | some .dir => (false, t)
    | none => (true, if (node t (session ++ marker p)).isNone then put (session ++ marker p) (.file []) t else t)

/-- `stage_change`. The path is `none` outside the workspace, and `syntaxValid` is what the parser says, `none` if it
raises. -/
def stageChange (p : Option Path) (newContent : String) (syntaxValid : Option Bool) (s : State) : State :=
  match p, syntaxValid with
  | some p, some syntaxValid =>
    if IsDir s.tree p then s
    else
      match saveBackup session p s.tree with
      | (true, tree) =>
        { s with tree, staged := upsert Prod.fst (p, ⟨newContent, syntaxValid⟩) (fun _ => (p, ⟨newContent, syntaxValid⟩)) s.staged }
      | (false, tree) => { s with tree }
  | _, _ => s

/-- One file of the folder of the session, in `restore_session`. -/
def restoreOne (q : Path) (t : Disk) : Bool × Disk :=
  if Marked q then
    match target q with
    | .path p =>
      match node t p with
      | none => (true, t)
      | some .dir => (false, t)
      | some (.file _) => (true, erase p t)
    | .parent p => (¬ IsDir t p, t)
  else
    match mkdirs q.dropLast t with
    | none => (false, t)
    | some t =>
      match (content t (session ++ q)).bind fun c => copyTo c q t with
      | none => (false, t)
      | some t => (true, t)

/-- The files in the order of the walk, up to the first that raises. -/
def restoreAll : List Path → Disk → Bool × Disk
  | [], t => (true, t)
  | q :: qs, t =>
    match restoreOne session q t with
    | (true, t) => restoreAll qs t
    | (false, t) => (false, t)

/-- `os.walk`, in an order of the system. -/
def walk (order : List Path) (t : Disk) : List Path :=
  if order.Perm (files session t) then order else files session t

def rollback (order : List Path) (s : State) : State :=
  { s with tree := (restoreAll session (walk session order s.tree) s.tree).2, committed := false }

end Session

/-- How a write fails: before the file is opened, or with something left in it. -/
inductive Fault
  | mkdir
  | write (left : Option Bytes)

/-- The loop of `commit`: whether all changes were written, and the tree. -/
def applyAll (fault : ℕ → Option Fault) : ℕ → List (Path × Change) → Disk → Bool × Disk
  | _, [], t => (true, t)
  | i, (p, change) :: rest, t =>
    if fault i matches some .mkdir then (false, t)
    else
      match mkdirs p.dropLast t with
      | none => (false, t)
      | some t =>
        if IsDir t p then (false, t)
        else
          match fault i with
          | some (.write (some left)) => (false, put p (.file left) t)
          | some _ => (false, t)
          | none => applyAll fault (i + 1) rest (put p (.file (encode change.newContent)) t)

def Commits (force : Bool) (s : State) : Prop := force = true ∨ ∀ x ∈ s.staged, x.2.syntaxValid = true

instance (force : Bool) (s : State) : Decidable (Commits force s) := inferInstanceAs (Decidable (_ ∨ _))

def commit (session : Path) (force : Bool) (fault : ℕ → Option Fault) (order : List Path) (s : State) : State :=
  if Commits force s then
    match applyAll fault 0 s.staged s.tree with
    | (true, tree) => { s with tree, committed := true }
    | (false, tree) => rollback session order { s with tree }
  else s

/-! ### Runs -/

inductive Event
  | stage (p : Option Path) (newContent : String) (syntaxValid : Option Bool)
  | commit (force : Bool) (fault : ℕ → Option Fault) (order : List Path)
  | rollback (order : List Path)

def step (session : Path) (s : State) : Event → State
  | .stage p newContent syntaxValid => stageChange session p newContent syntaxValid s
  | .commit force fault order => commit session force fault order s
  | .rollback order => rollback session order s

/-- A workspace with the folder of a fresh session. -/
structure Workspace where
  tree : Disk
  sid : Name
  wellFormed : WellFormed tree
  isDir : IsDir tree (snapshots ++ [sid])
  fresh : ∀ q, q ≠ [] → node tree (snapshots ++ [sid] ++ q) = none

def Workspace.session (w : Workspace) : Path := snapshots ++ [w.sid]

def Workspace.start (w : Workspace) : State := { tree := w.tree }

def RollsBack (s : State) : Event → Prop
  | .rollback _ => True
  | .commit force fault _ => Commits force s ∧ (applyAll fault 0 s.staged s.tree).1 = false
  | .stage _ _ _ => False

/-- The files outside `.smara/snapshots` are those of the workspace. -/
def Restored (w : Workspace) (t : Disk) : Prop := ∀ p, ¬ snapshots <+: p → content t p = content w.tree p

def Restores (w : Workspace) (s : State) (e : Event) : Prop := RollsBack s e → Restored w (step w.session s e).tree

/-- The path is one that the session can take back: it lies outside the snapshots, the file is as it was, its name is not
that of a marker, and nothing was staged in a folder of its name or of its marker. -/
structure Stageable (w : Workspace) (s : State) (p : Path) : Prop where
  outside : ¬ snapshots <+: p
  unchanged : content s.tree p = content w.tree p
  unmarked : (content s.tree p).isSome → ¬ Marked p
  free : content s.tree p = none → ∀ q ∈ s.keys, marker p <+: q → q = marker p
  leaf : ∀ q ∈ s.keys, p <+: q → q = p

/-- The steps of the condition. -/
def Sound (w : Workspace) (s : State) : Event → Prop
  | .stage (some p) _ (some _) => ¬ IsDir s.tree p → Stageable w s p
  | _ => True

section Proofs
variable {w : Workspace} {s : State} {keys : List Path} {t t' : Disk} {p q r : Path} {c : Bytes}

/-! ### Names -/

theorem ne_nil_of_outside (h : ¬ IsDir t p) : p ≠ [] := by
  rintro rfl
  exact h isDir_nil

theorem marker_eq {n : Name} (h : p.getLast? = some n) : marker p = p.dropLast ++ [⟨n.text ++ newFile, valid_marker n.text⟩] := by
  simp [marker, h]

theorem exists_last (h : p ≠ []) : ∃ n, p.getLast? = some n ∧ p = p.dropLast ++ [n] := by
  refine ⟨p.getLast h, List.getLast?_eq_some_getLast h, ?_⟩
  rw [List.dropLast_concat_getLast h]

theorem dropLast_marker (h : p ≠ []) : (marker p).dropLast = p.dropLast := by
  obtain ⟨n, hn, -⟩ := exists_last h
  rw [marker_eq hn, List.dropLast_concat]

theorem marked_marker (h : p ≠ []) : Marked (marker p) := by
  obtain ⟨n, hn, -⟩ := exists_last h
  refine ⟨_, by rw [marker_eq hn, List.getLast?_concat]; rfl, ?_⟩
  rw [String.toList_append]
  exact List.suffix_append _ _

theorem target_marker (h : p ≠ []) : target (marker p) = .path p := by
  obtain ⟨n, hn, hp⟩ := exists_last h
  have hlast : (marker p).getLast? = some ⟨n.text ++ newFile, valid_marker n.text⟩ := by
    rw [marker_eq hn, List.getLast?_concat]
  have hrest : String.ofList ((n.text ++ newFile).toList.take ((n.text ++ newFile).toList.length - 9)) = n.text := by
    have hlen : newFile.toList.length = 9 := by decide
    rw [String.toList_append, List.length_append, hlen, Nat.add_sub_cancel, List.take_left, String.ofList_toList]
  unfold target
  simp only [hlast, hrest, dropLast_marker h]
  rw [dif_pos n.valid, ← hp]

theorem marker_injective (hp : p ≠ []) (hq : q ≠ []) (h : marker p = marker q) : p = q := by
  have htarget := target_marker hp
  rw [h, target_marker hq] at htarget
  exact (Target.path.inj htarget).symm

/-! ### The folder of the session -/

def backup (w : Workspace) (p : Path) : Path := if (content w.tree p).isSome then p else marker p

/-- What holds of the tree, with the paths that were staged: what was not staged is as it was, the copies are in the folder
of the session, and nothing else is. -/
structure Inv (w : Workspace) (keys : List Path) (t : Disk) : Prop where
  outside : ∀ p, ¬ snapshots <+: p → p ∉ keys → content t p = content w.tree p
  dirs : ∀ p, IsDir w.tree p → IsDir t p
  plain : ∀ p ∈ keys, ¬ snapshots <+: p ∧ ¬ IsDir t p
  saved : ∀ (p : Path) (c : Bytes), p ∈ keys → content w.tree p = some c →
    content t (w.session ++ p) = some c ∧ ¬ Marked p
  marked : ∀ p ∈ keys, content w.tree p = none → (content t (w.session ++ marker p)).isSome
  backups : ∀ q, (content t (w.session ++ q)).isSome → ∃ p ∈ keys, q = backup w p
  folders : ∀ q, q ≠ [] → IsDir t (w.session ++ q) → ∃ p ∈ keys, q <+: p ∧ q ≠ p
  order : keys.Pairwise fun p q => q <+: p → q = p

theorem under_session : snapshots <+: w.session ++ q := by
  rw [Workspace.session, List.append_assoc]
  exact List.prefix_append _ _

theorem session_ne_nil : w.session ++ q ≠ [] := by
  simp [Workspace.session, snapshots]

theorem inv_start : Inv w [] w.tree := by
  refine ⟨fun _ _ _ => rfl, fun _ h => h, ?_, ?_, ?_, fun q hq => ?_, fun q hq hdir => ?_, List.Pairwise.nil⟩
  · intro p hp
    simp at hp
  · intro p c hp
    simp at hp
  · intro p hp
    simp at hp
  · have hne : q ≠ [] := by
      rintro rfl
      rw [List.append_nil] at hq
      exact not_isDir_of_content hq w.isDir
    have hnone : content w.tree (w.session ++ q) = none := by
      unfold content
      rw [show node w.tree (w.session ++ q) = none from w.fresh q hne]
    rw [hnone] at hq
    cases hq
  · rw [isDir_iff, show node w.tree (w.session ++ q) = none from w.fresh q hq] at hdir
    cases hdir

theorem Inv.ne_nil (hinv : Inv w keys t) (hp : p ∈ keys) : p ≠ [] := ne_nil_of_outside (hinv.plain p hp).2

theorem Inv.backup_isSome (hinv : Inv w keys t) (hp : p ∈ keys) : (content t (w.session ++ backup w p)).isSome := by
  unfold backup
  split_ifs with hold
  · obtain ⟨c, hc⟩ := Option.isSome_iff_exists.mp hold
    rw [(hinv.saved p c hp hc).1]
    rfl
  · exact hinv.marked p hp (Option.not_isSome_iff_eq_none.mp hold)

theorem Inv.isDir_of_prefix (hinv : Inv w keys t) (hp : (node w.tree p).isSome) (hq : q <+: p) (hne : q ≠ p) : IsDir t q :=
  hinv.dirs q (w.wellFormed p q hp hq hne)

theorem Inv.set (hinv : Inv w keys t) (hp : p ∈ keys) {n : Option (Node Bytes)} (hn : n ≠ some .dir)
    (hnode : ∀ r, node t' r = if r = p then n else node t r) : Inv w keys t' := by
  obtain ⟨hout, hplain⟩ := hinv.plain p hp
  have hother : ∀ r, r ≠ p → node t' r = node t r := fun r hr => by rw [hnode, if_neg hr]
  have hdir : ∀ r, IsDir t' r → r ≠ p := by
    rintro r hr rfl
    rw [isDir_iff, hnode, if_pos rfl] at hr
    exact hn hr
  have hsession : ∀ q, node t' (w.session ++ q) = node t (w.session ++ q) := fun q =>
    hother _ fun heq => hout (heq ▸ under_session)
  refine ⟨fun r hr hnot => ?_, fun r hr => ?_, fun r hr => ⟨(hinv.plain r hr).1, fun hd => ?_⟩, fun r c hr hc => ?_,
    fun r hr hc => ?_, fun q hq => ?_, fun q hne hd => ?_, hinv.order⟩
  · have hrp : r ≠ p := fun heq => hnot (heq ▸ hp)
    rw [content_congr (hother r hrp)]
    exact hinv.outside r hr hnot
  · have hd := hinv.dirs r hr
    have hrp : r ≠ p := fun heq => hplain (heq ▸ hd)
    rw [isDir_iff, hother r hrp]
    exact isDir_iff.mp hd
  · have hnode' := isDir_iff.mp hd
    rw [hother r (hdir r hd)] at hnode'
    exact (hinv.plain r hr).2 (isDir_iff.mpr hnode')
  · rw [content_congr (hsession r)]
    exact hinv.saved r c hr hc
  · rw [content_congr (hsession _)]
    exact hinv.marked r hr hc
  · rw [content_congr (hsession q)] at hq
    exact hinv.backups q hq
  · rw [isDir_iff, hsession q] at hd
    exact hinv.folders q hne (isDir_iff.mpr hd)

/-! ### Rollback -/

theorem Inv.restoreOne (hinv : Inv w keys t) (hp : p ∈ keys) : ∃ t', restoreOne w.session (backup w p) t = (true, t') ∧
    ∀ r, node t' r = if r = p then (content w.tree p).map Node.file else node t r := by
  obtain ⟨hout, hplain⟩ := hinv.plain p hp
  have hne : p ≠ [] := hinv.ne_nil hp
  cases hold : content w.tree p with
  | some c =>
    obtain ⟨hsaved, hunmarked⟩ := hinv.saved p c hp hold
    have hbackup : backup w p = p := if_pos (by rw [hold]; rfl)
    have hthere : (node w.tree p).isSome := by
      rw [content_eq_some.mp hold]
      rfl
    have hfolders : ∀ q, q <+: p.dropLast → IsDir t q := by
      intro q hq
      have hlt : q ≠ p := by
        rintro rfl
        have hlen := hq.length_le
        rw [List.length_dropLast] at hlen
        have hpos := List.length_pos_of_ne_nil hne
        omega
      exact hinv.isDir_of_prefix hthere (hq.trans (List.dropLast_prefix p)) hlt
    cases hmk : mkdirs p.dropLast t with
    | none =>
      obtain ⟨q, hq, hfile⟩ := mkdirs_eq_none.mp hmk
      exact absurd (hfolders q hq) (not_isDir_of_content hfile)
    | some t₁ =>
      have hnode : ∀ r, node t₁ r = node t r := by
        intro r
        rw [node_mkdirs hmk]
        split_ifs with hr
        · exact (isDir_iff.mp (hfolders r hr)).symm
        · rfl
      have hnotdir : ¬ IsDir t₁ p := by
        rw [isDir_iff, hnode, ← isDir_iff]
        exact hplain
      refine ⟨put p (.file c) t₁, ?_, fun r => ?_⟩
      · rw [hbackup, Refactor.restoreOne, if_neg hunmarked]
        simp only [hmk, content_mkdirs hmk, hsaved, Option.bind_some, copyTo, if_neg hnotdir]
      · rw [node_put hne, hnode]
        rfl
  | none =>
    have hbackup : backup w p = marker p := if_neg (by rw [hold]; simp)
    rw [hbackup, Refactor.restoreOne, if_pos (marked_marker hne)]
    simp only [target_marker hne]
    cases hn : node t p with
    | none =>
      refine ⟨t, rfl, fun r => ?_⟩
      split_ifs with hr
      · rw [hr, hn]
        rfl
      · rfl
    | some n =>
      cases n with
      | dir => exact absurd (isDir_iff.mpr hn) hplain
      | file c => exact ⟨erase p t, rfl, fun r => node_erase hne⟩

theorem Inv.restoreAll (hinv : Inv w keys t) {l : List Path} (hl : ∀ q ∈ l, ∃ p ∈ keys, q = backup w p) :
    ∃ t', restoreAll w.session l t = (true, t') ∧ Inv w keys t' ∧
      ∀ p ∈ keys, backup w p ∈ l ∨ content t p = content w.tree p → content t' p = content w.tree p := by
  induction l generalizing t with
  | nil =>
    refine ⟨t, rfl, hinv, fun p _ h => ?_⟩
    rcases h with h | h
    · simp at h
    · exact h
  | cons q l ih =>
    obtain ⟨p, hp, rfl⟩ := hl q List.mem_cons_self
    obtain ⟨t₁, hone, hnode⟩ := hinv.restoreOne hp
    have hinv₁ : Inv w keys t₁ := by
      refine hinv.set hp ?_ hnode
      cases content w.tree p <;> simp
    have hself : content t₁ p = content w.tree p := by
      unfold content
      rw [hnode, if_pos rfl]
      cases hc : content w.tree p with
      | none =>
        unfold content at hc
        rw [hc]
        rfl
      | some c =>
        unfold content at hc
        rw [hc]
        rfl
    obtain ⟨t', hall, hinv', hrest⟩ := ih hinv₁ fun q hq => hl q (List.mem_cons_of_mem _ hq)
    refine ⟨t', ?_, hinv', fun r hr h => hrest r hr ?_⟩
    · rw [Refactor.restoreAll, hone]
      exact hall
    · by_cases hrp : r = p
      · rw [hrp]
        exact Or.inr hself
      · have hsame : content t₁ r = content t r := content_congr (by rw [hnode, if_neg hrp])
        rw [hsame]
        rcases h with h | h
        · rcases List.mem_cons.mp h with h | h
          · -- two paths with one backup are one path
            refine absurd ?_ hrp
            unfold backup at h
            split_ifs at h with hr' hp' hp'
            · exact h
            · obtain ⟨c, hc⟩ := Option.isSome_iff_exists.mp hr'
              exact absurd (h ▸ marked_marker (hinv.ne_nil hp)) (hinv.saved r c hr hc).2
            · obtain ⟨c, hc⟩ := Option.isSome_iff_exists.mp hp'
              exact absurd (h ▸ marked_marker (hinv.ne_nil hr)) (hinv.saved p c hp hc).2
            · exact marker_injective (hinv.ne_nil hr) (hinv.ne_nil hp) h
          · exact Or.inl h
        · exact Or.inr h

theorem Inv.rollback (hinv : Inv w keys s.tree) (order : List Path) :
    Inv w keys (rollback w.session order s).tree ∧ Restored w (Refactor.rollback w.session order s).tree := by
  have hwalk : ∀ q, q ∈ walk w.session order s.tree ↔ q ∈ files w.session s.tree := by
    intro q
    unfold walk
    split_ifs with hperm
    · exact hperm.mem_iff
    · exact Iff.rfl
  obtain ⟨t', hall, hinv', hrestored⟩ := hinv.restoreAll (l := walk w.session order s.tree) fun q hq =>
    hinv.backups q (mem_files.mp ((hwalk q).mp hq))
  have htree : (Refactor.rollback w.session order s).tree = t' := by
    simp only [Refactor.rollback, hall]
  rw [htree]
  refine ⟨hinv', fun p hout => ?_⟩
  by_cases hp : p ∈ keys
  · exact hrestored p hp (Or.inl ((hwalk _).mpr (mem_files.mpr (hinv.backup_isSome hp))))
  · exact hinv'.outside p hout hp

/-! ### Commit -/

theorem Inv.made (hinv : Inv w keys t) (hout : ¬ snapshots <+: q) (hmk : mkdirs q t = some t')
    (hkeys : ∀ p ∈ keys, p <+: q → (content t p).isSome) : Inv w keys t' := by
  have hcontent : ∀ r, content t' r = content t r := fun r => content_mkdirs hmk
  have hsession : ∀ r, ¬ w.session ++ r <+: q := fun r hr => hout (under_session.trans hr)
  refine ⟨fun r hr hnot => ?_, fun r hr => ?_, fun r hr => ⟨(hinv.plain r hr).1, fun hd => ?_⟩, fun r c hr hc => ?_,
    fun r hr hc => ?_, fun r hr => ?_, fun r hne hd => ?_, hinv.order⟩
  · rw [hcontent]
    exact hinv.outside r hr hnot
  · have hd := isDir_iff.mp (hinv.dirs r hr)
    rw [isDir_iff, node_mkdirs hmk]
    split_ifs
    · rfl
    · exact hd
  · have hnode := isDir_iff.mp hd
    rw [node_mkdirs hmk] at hnode
    split_ifs at hnode with hrq
    · have hnone : mkdirs q t = none := mkdirs_eq_none.mpr ⟨r, hrq, hkeys r hr hrq⟩
      rw [hnone] at hmk
      cases hmk
    · exact (hinv.plain r hr).2 (isDir_iff.mpr hnode)
  · rw [hcontent]
    exact hinv.saved r c hr hc
  · rw [hcontent]
    exact hinv.marked r hr hc
  · rw [hcontent] at hr
    exact hinv.backups r hr
  · have hnode := isDir_iff.mp hd
    rw [node_mkdirs hmk, if_neg (hsession r)] at hnode
    exact hinv.folders r hne (isDir_iff.mpr hnode)

/-- **The writes of a commit**, up to one that fails. -/
theorem Inv.applyAll {fault : ℕ → Option Fault} {i : ℕ} {rest : List (Path × Change)} (hinv : Inv w keys t)
    (done : List Path) (hkeys : keys = done ++ rest.map Prod.fst) (hdone : ∀ p ∈ done, (content t p).isSome) :
    Inv w keys (applyAll fault i rest t).2 := by
  induction rest generalizing i t done with
  | nil => exact hinv
  | cons x rest ih =>
    obtain ⟨p, change⟩ := x
    have hp : p ∈ keys := by
      rw [hkeys]
      simp
    have hne := hinv.ne_nil hp
    simp only [Refactor.applyAll]
    split_ifs with hfault
    · exact hinv
    · split
      · exact hinv
      · next t₁ hmk =>
        have hout : ¬ snapshots <+: p.dropLast := fun h => (hinv.plain p hp).1 (h.trans (List.dropLast_prefix p))
        have hbefore : ∀ q ∈ keys, q <+: p.dropLast → (content t q).isSome := by
          intro q hq hpre
          rw [hkeys, List.mem_append] at hq
          rcases hq with hq | hq
          · exact hdone q hq
          · -- what is staged later is no folder of this file
            exfalso
            have hlt : q ≠ p := by
              rintro rfl
              have hlen := hpre.length_le
              rw [List.length_dropLast] at hlen
              have hpos := List.length_pos_of_ne_nil hne
              omega
            rw [List.map_cons, List.mem_cons] at hq
            rcases hq with hq | hq
            · exact hlt hq
            · have horder := hinv.order
              rw [hkeys, List.pairwise_append] at horder
              have hlater := List.rel_of_pairwise_cons horder.2.1 hq
              exact hlt (hlater (hpre.trans (List.dropLast_prefix p)))
        have hinv₁ : Inv w keys t₁ := hinv.made hout hmk hbefore
        have hput : ∀ c : Bytes, Inv w keys (put p (.file c) t₁) := fun c =>
          hinv₁.set hp (n := some (.file c)) (by simp) fun r => node_put hne
        split_ifs
        · exact hinv₁
        · split
          · exact hput _
          · exact hinv₁
          · refine ih (hput _) (done ++ [p]) (by rw [hkeys]; simp) fun q hq => ?_
            rw [content_put hne]
            split_ifs with hqp
            · rfl
            · rcases List.mem_append.mp hq with hq | hq
              · rw [content_mkdirs hmk]
                exact hdone q hq
              · exact absurd (List.mem_singleton.mp hq) hqp

theorem Inv.commit (hinv : Inv w s.keys s.tree) (force : Bool) (fault : ℕ → Option Fault) (order : List Path) :
    Inv w (commit w.session force fault order s).keys (commit w.session force fault order s).tree := by
  have happlied : Inv w s.keys (Refactor.applyAll fault 0 s.staged s.tree).2 :=
    hinv.applyAll [] rfl fun p hp => by simp at hp
  unfold Refactor.commit
  split_ifs
  · split
    · next tree heq =>
      rw [heq] at happlied
      exact happlied
    · next tree heq =>
      rw [heq] at happlied
      exact (Inv.rollback (s := { s with tree }) happlied order).1
  · exact hinv

/-! ### Stage -/

theorem backup_ne_nil (hp : p ≠ []) : backup w p ≠ [] := by
  unfold backup
  split_ifs
  · exact hp
  · intro h
    have hmarked := marked_marker hp
    rw [h] at hmarked
    obtain ⟨n, hn, -⟩ := hmarked
    simp at hn

theorem Inv.not_prefix (hinv : Inv w keys t) (hout : ¬ snapshots <+: r) (hplain : ¬ IsDir t r) : ¬ r <+: w.session ++ q := by
  intro hr
  rcases List.prefix_or_prefix_of_prefix hr (List.prefix_append w.session q) with h | h
  · have hdir : IsDir w.tree r := by
      by_cases heq : r = w.session
      · rw [heq]
        exact w.isDir
      · refine w.wellFormed w.session r ?_ h heq
        rw [show node w.tree w.session = some .dir from isDir_iff.mp w.isDir]
        rfl
    exact hplain (hinv.dirs r hdir)
  · exact hout ((under_session (q := [])).trans (by simpa using h))

theorem Inv.save {keys' : List Path} {t₁ : Disk} {x : Bytes} (hinv : Inv w keys t) (hplain : ¬ IsDir t p) (hout : ¬ snapshots <+: p)
    (hmk : mkdirs (w.session ++ p.dropLast) t = some t₁)
    (hnode : ∀ r, node t' r = if r = w.session ++ backup w p then some (.file x) else node t₁ r)
    (hx : ∀ c, content w.tree p = some c → x = c ∧ ¬ Marked p)
    (hkeys : ∀ q, q ∈ keys' ↔ q ∈ keys ∨ q = p) (horder : keys'.Pairwise fun p q => q <+: p → q = p) : Inv w keys' t' := by
  have hne := ne_nil_of_outside hplain
  have hself : node t' (w.session ++ backup w p) = some (.file x) := by rw [hnode, if_pos rfl]
  have hfile : content t' (w.session ++ backup w p) = some x := content_eq_some.mpr hself
  have hcontent : ∀ r, r ≠ w.session ++ backup w p → content t' r = content t r := by
    intro r hr
    rw [← content_mkdirs hmk]
    exact content_congr (by rw [hnode, if_neg hr])
  have hdir : ∀ r, IsDir t' r ↔ r ≠ w.session ++ backup w p ∧ (r <+: w.session ++ p.dropLast ∨ IsDir t r) := by
    intro r
    rw [isDir_iff, hnode, node_mkdirs hmk, isDir_iff]
    split_ifs with h₁ h₂
    · simp [h₁]
    · simp [h₁, h₂]
    · simp [h₁, h₂]
  have hoff : ∀ r, ¬ snapshots <+: r → r ≠ w.session ++ backup w p := by
    rintro r hr rfl
    exact hr under_session
  refine ⟨fun r hr hnot => ?_, fun r hr => ?_, fun r hr => ?_, fun r c hr hc => ?_, fun r hr hc => ?_, fun q hq => ?_,
    fun q hq hd => ?_, horder⟩
  · rw [hcontent r (hoff r hr)]
    exact hinv.outside r hr fun hmem => hnot ((hkeys r).mpr (Or.inl hmem))
  · refine (hdir r).mpr ⟨?_, Or.inr (hinv.dirs r hr)⟩
    rintro rfl
    rw [isDir_iff, show node w.tree (w.session ++ backup w p) = none from w.fresh _ (backup_ne_nil hne)] at hr
    cases hr
  · have hrout : ¬ snapshots <+: r ∧ ¬ IsDir t r := by
      rcases (hkeys r).mp hr with hmem | rfl
      · exact hinv.plain r hmem
      · exact ⟨hout, hplain⟩
    refine ⟨hrout.1, fun hd => ?_⟩
    rcases ((hdir r).mp hd).2 with hpre | hd
    · exact hinv.not_prefix hrout.1 hrout.2 hpre
    · exact hrout.2 hd
  · by_cases hrp : r = p
    · subst hrp
      have hbackup : backup w r = r := if_pos (by rw [hc]; rfl)
      obtain ⟨rfl, hunmarked⟩ := hx c hc
      rw [hbackup] at hfile
      exact ⟨hfile, hunmarked⟩
    · obtain ⟨hold, hunmarked⟩ := hinv.saved r c (((hkeys r).mp hr).resolve_right hrp) hc
      refine ⟨?_, hunmarked⟩
      rw [hcontent, hold]
      intro heq
      have hr' := List.append_cancel_left heq
      unfold backup at hr'
      split_ifs at hr'
      · exact hrp hr'
      · exact hunmarked (hr' ▸ marked_marker hne)
  · by_cases heq : w.session ++ marker r = w.session ++ backup w p
    · rw [heq, hfile]
      rfl
    · rw [hcontent _ heq]
      refine hinv.marked r (((hkeys r).mp hr).resolve_right ?_) hc
      rintro rfl
      exact heq (by rw [backup, hc, if_neg (by simp)])
  · by_cases heq : q = backup w p
    · exact ⟨p, (hkeys p).mpr (Or.inr rfl), heq⟩
    · rw [hcontent _ fun h => heq (List.append_cancel_left h)] at hq
      obtain ⟨r, hr, hqr⟩ := hinv.backups q hq
      exact ⟨r, (hkeys r).mpr (Or.inl hr), hqr⟩
  · rcases ((hdir _).mp hd).2 with hpre | hd
    · have hq' : q <+: p.dropLast := (List.prefix_append_right_inj w.session).mp hpre
      refine ⟨p, (hkeys p).mpr (Or.inr rfl), hq'.trans (List.dropLast_prefix p), ?_⟩
      rintro rfl
      have hlen := hq'.length_le
      rw [List.length_dropLast] at hlen
      have hpos := List.length_pos_of_ne_nil hne
      omega
    · obtain ⟨r, hr, hqr⟩ := hinv.folders q hq hd
      exact ⟨r, (hkeys r).mpr (Or.inl hr), hqr⟩

theorem Inv.saveBackup {keys' : List Path} {ok : Bool} (hinv : Inv w s.keys s.tree) (hplain : ¬ IsDir s.tree p)
    (hp : Stageable w s p) (hsave : saveBackup w.session p s.tree = (ok, t')) (hkeys : ∀ q, q ∈ keys' ↔ q ∈ s.keys ∨ q = p)
    (horder : keys'.Pairwise fun p q => q <+: p → q = p) : Inv w (if ok then keys' else s.keys) t' := by
  have hne := ne_nil_of_outside hplain
  have hlast : (w.session ++ p).dropLast = w.session ++ p.dropLast := List.dropLast_append_of_ne_nil hne
  rw [Refactor.saveBackup, hlast] at hsave
  split at hsave
  · obtain ⟨rfl, rfl⟩ := Prod.mk.inj hsave
    exact hinv
  · next t₁ hmk =>
    have hnot : ∀ r, ¬ snapshots <+: r → ¬ IsDir s.tree r → node t₁ r = node s.tree r := fun r hr hd => by
      rw [node_mkdirs hmk, if_neg (hinv.not_prefix hr hd)]
    have hbeyond : ∀ r, r.length = p.length → node t₁ (w.session ++ r) = node s.tree (w.session ++ r) := by
      intro r hr
      rw [node_mkdirs hmk, if_neg]
      intro hpre
      have hlen := ((List.prefix_append_right_inj w.session).mp hpre).length_le
      rw [List.length_dropLast] at hlen
      have hpos := List.length_pos_of_ne_nil hne
      omega
    rw [hnot p hp.outside hplain] at hsave
    split at hsave
    · next c hc =>
      have hcontent := content_eq_some.mpr hc
      have hold : content w.tree p = some c := by rw [← hp.unchanged, hcontent]
      have hbackup : backup w p = p := if_pos (by rw [hold]; rfl)
      have hfree : ¬ IsDir t₁ (w.session ++ p) := by
        rw [isDir_iff, hbeyond p rfl, ← isDir_iff]
        intro hd
        obtain ⟨q, hq, hpre, hlt⟩ := hinv.folders p hne hd
        exact hlt (hp.leaf q hq hpre).symm
      rw [copyTo, if_neg hfree] at hsave
      obtain ⟨rfl, rfl⟩ := Prod.mk.inj hsave
      refine hinv.save hplain hp.outside hmk (x := c) (fun r => ?_) (fun c' hc' => ?_) hkeys horder
      · rw [node_put session_ne_nil, hbackup]
      · rw [hold] at hc'
        exact ⟨Option.some.inj hc', hp.unmarked (by rw [hcontent]; rfl)⟩
    · next hd => exact absurd (isDir_iff.mpr hd) hplain
    · next hn =>
      have hnone : content s.tree p = none := by
        unfold content
        rw [hn]
      have hold : content w.tree p = none := by rw [← hp.unchanged, hnone]
      have hbackup : backup w p = marker p := if_neg (by rw [hold]; simp)
      have hmarker : (marker p).length = p.length := by
        obtain ⟨n, hn, hp'⟩ := exists_last hne
        rw [marker_eq hn]
        conv_rhs => rw [hp']
        simp
      have hx : ∀ (x c : Bytes), content w.tree p = some c → x = c ∧ ¬ Marked p := by
        intro x c hc
        rw [hold] at hc
        cases hc
      obtain ⟨rfl, rfl⟩ := Prod.mk.inj hsave
      show Inv w keys' _
      split_ifs with hthere
      · refine hinv.save hplain hp.outside hmk (x := []) (fun r => ?_) (hx _) hkeys horder
        rw [node_put session_ne_nil, hbackup]
      · cases hm : node t₁ (w.session ++ marker p) with
        | none => exact absurd (by rw [hm]; rfl) hthere
        | some n =>
          cases n with
          | dir =>
            rw [hbeyond _ hmarker] at hm
            obtain ⟨q, hq, hpre, hlt⟩ := hinv.folders _ (hbackup ▸ backup_ne_nil hne) (isDir_iff.mpr hm)
            exact absurd (hp.free hnone q hq hpre).symm hlt
          | file x =>
            refine hinv.save hplain hp.outside hmk (x := x) (fun r => ?_) (hx _) hkeys horder
            rw [hbackup]
            split_ifs with hr
            · rw [hr, hm]
            · rfl

theorem keys_upsert {change : Change} : (upsert Prod.fst (p, change) (fun _ => (p, change)) s.staged).map Prod.fst =
    if p ∈ s.keys then s.keys else s.keys ++ [p] := by
  have hiff : (∃ x ∈ s.staged, x.1 = p) ↔ p ∈ s.keys := by simp [State.keys]
  unfold upsert
  simp only [hiff]
  split_ifs
  · exact map_updateWhere fun x hx => hx.symm
  · simp [State.keys]

theorem Inv.stage {newContent : String} {syntaxValid : Option Bool} {path : Option Path} (hinv : Inv w s.keys s.tree)
    (hsound : Sound w s (.stage path newContent syntaxValid)) :
    Inv w (stageChange w.session path newContent syntaxValid s).keys (stageChange w.session path newContent syntaxValid s).tree := by
  unfold stageChange
  split
  · next p valid =>
    split_ifs with hplain
    · exact hinv
    · have hp : Stageable w s p := hsound hplain
      generalize hkeys : (upsert Prod.fst (p, (⟨newContent, valid⟩ : Change)) (fun _ => (p, ⟨newContent, valid⟩)) s.staged).map
        Prod.fst = keys'
      rw [keys_upsert] at hkeys
      have hmem : ∀ q, q ∈ keys' ↔ q ∈ s.keys ∨ q = p := by
        intro q
        rw [← hkeys]
        split_ifs with hthere
        · constructor
          · exact Or.inl
          · rintro (hq | rfl)
            · exact hq
            · exact hthere
        · simp
      have horder : keys'.Pairwise fun p q => q <+: p → q = p := by
        rw [← hkeys]
        split_ifs
        · exact hinv.order
        · refine List.pairwise_append.mpr ⟨hinv.order, List.pairwise_singleton _ _, fun q hq r hr hpre => ?_⟩
          obtain rfl := List.mem_singleton.mp hr
          exact (hp.leaf q hq hpre).symm
      split
      · next tree hsave =>
        have hsaved := hinv.saveBackup hplain hp hsave hmem horder
        rw [← hkeys, ← keys_upsert] at hsaved
        exact hsaved
      · next tree hsave => exact hinv.saveBackup hplain hp hsave hmem horder
  · exact hinv

theorem Inv.step {e : Event} (hinv : Inv w s.keys s.tree) (hsound : Sound w s e) :
    Inv w (step w.session s e).keys (step w.session s e).tree := by
  cases e with
  | stage path newContent syntaxValid => exact hinv.stage hsound
  | commit force fault order => exact hinv.commit force fault order
  | rollback order => exact (hinv.rollback order).1

theorem Inv.restores {e : Event} (hinv : Inv w s.keys s.tree) : Restores w s e := by
  intro hback
  cases e with
  | stage path newContent syntaxValid => exact hback.elim
  | commit force fault order =>
    obtain ⟨hcommits, hfails⟩ := hback
    have happlied : Inv w s.keys (Refactor.applyAll fault 0 s.staged s.tree).2 :=
      hinv.applyAll [] rfl fun p hp => by simp at hp
    show Restored w (Refactor.commit w.session force fault order s).tree
    rw [Refactor.commit, if_pos hcommits]
    generalize Refactor.applyAll fault 0 s.staged s.tree = applied at hfails happlied
    obtain ⟨ok, tree⟩ := applied
    obtain rfl : ok = false := hfails
    exact (Inv.rollback (s := { s with tree }) happlied order).2
  | rollback order => exact (hinv.rollback order).2

end Proofs

/-- **A rollback restores the workspace**, in every run that stages only what the session can take back. -/
theorem rollback_restores (w : Workspace) {events : List Event} (h : Along (step w.session) (Sound w) w.start events) :
    Along (step w.session) (Restores w) w.start events :=
  along_of_inv (I := fun s : State => Inv w s.keys s.tree) (fun _ _ hinv hsound => hinv.step hsound)
    (fun _ _ hinv _ => hinv.restores) inv_start h

def name (text : String) (h : text ≠ "" ∧ text ≠ "." ∧ text ≠ ".." := by decide) : Name := ⟨text, h⟩

/-- A workspace with the file `a`, which is empty. -/
def oneFile : Workspace :=
  let tree : Disk := [([name ".smara"], .dir), (snapshots, .dir), (snapshots ++ [name "s"], .dir), ([name "a"], .file [])]
  { tree
    sid := name "s"
    wellFormed := wellFormed_of (by decide)
    isDir := by decide
    fresh := by
      intro q hq
      by_contra hsome
      have hmem := mem_of_node (Option.isSome_iff_ne_none.mpr hsome) (by simp)
      have hkeys : ∀ p ∈ tree.map Prod.fst, snapshots ++ [name "s"] <+: p → p = snapshots ++ [name "s"] := by decide
      exact hq (List.append_cancel_left ((hkeys _ hmem (List.prefix_append _ _)).trans (List.append_nil _).symm)) }

/-- The second write of a commit fails. -/
theorem rollback_restores_commit : Along (step oneFile.session) (Restores oneFile) oneFile.start
    [.stage (some [name "a"]) "new" (some true), .stage (some [name "b"]) "b" (some true),
      .commit false (fun i => if i = 1 then some (.write none) else none) []] := by
  have h : Along (step oneFile.session) (Sound oneFile) oneFile.start
      [.stage (some [name "a"]) "new" (some true), .stage (some [name "b"]) "b" (some true),
        .commit false (fun i => if i = 1 then some (.write none) else none) []] := by
    refine ⟨fun _ => ⟨by decide, by decide, fun _ => by decide, fun _ => by decide,
      by decide⟩, fun _ => ⟨by decide, by decide, fun _ => by decide,
      fun _ => by decide, by decide⟩, trivial, trivial⟩
  exact rollback_restores oneFile h

/-- **What is not staged stays as it is**, and the folder of the session keeps what the staged files were. -/
theorem unstaged_stays (w : Workspace) {events : List Event} (h : Along (step w.session) (Sound w) w.start events) :
    let s := run (step w.session) w.start events
    (∀ p, ¬ snapshots <+: p → p ∉ s.keys → content s.tree p = content w.tree p) ∧
      ∀ p ∈ s.keys, ∀ c, content w.tree p = some c → content s.tree (w.session ++ p) = some c := by
  have hinv := inv_run (I := fun s : State => Inv w s.keys s.tree) (fun _ _ hinv hsound => hinv.step hsound) inv_start h
  exact ⟨hinv.outside, fun p hp c hc => (hinv.saved p c hp hc).1⟩

theorem unstaged_stays_commit : content (run (step oneFile.session) oneFile.start
    [.stage (some [name "b"]) "b" (some true), .commit false (fun _ => none) []]).tree [name "a"] = some [] := by
  refine (unstaged_stays oneFile ?_).1 _ (by decide) (by decide)
  exact ⟨fun _ => ⟨by decide, by decide, fun _ => by decide, fun _ => by decide, by decide⟩, trivial, trivial⟩

/-- The file is staged again after a commit, and what the commit wrote takes the place of its copy. -/
theorem staged_again_not_restored :
    ¬ ∀ (w : Workspace) (events : List Event), Along (step w.session) (Restores w) w.start events := by
  intro h
  have hrestored := (h oneFile [.stage (some [name "a"]) "new" (some true), .commit false (fun _ => none) [],
    .stage (some [name "a"]) "newer" (some true), .rollback []]).2.2.2.1 trivial [name "a"] (by decide)
  revert hrestored
  decide +kernel

end Smara.Files.Refactor
