import Mathlib.Data.List.Dedup
import Mathlib.Data.List.Infix

/-! # Trees of folders and files

A tree is a list of paths with their nodes; the first entry of a path counts, and the root is a folder.

* `node_put`, `node_erase`, `node_mkdirs`: what the operations make of every path.
* `content_mkdirs`: folders that are made change no file.
* `mem_files`: the files of a folder and of the folders in it. -/

namespace Smara.Lib.FileTree

variable {ν β : Type*} [DecidableEq ν]

inductive Node (β : Type*)
  | dir
  | file (content : β)
  deriving DecidableEq

abbrev Tree (ν β : Type*) := List (List ν × Node β)

def node (t : Tree ν β) : List ν → Option (Node β)
  | [] => some .dir
  | a :: p => (t.find? fun e => e.1 = a :: p).map Prod.snd

def content (t : Tree ν β) (p : List ν) : Option β :=
  match node t p with
  | some (.file c) => some c
  | _ => none

def IsDir (t : Tree ν β) (p : List ν) : Prop :=
  match node t p with
  | some .dir => True
  | _ => False

instance (t : Tree ν β) : DecidablePred (IsDir t) := fun p => by
  unfold IsDir
  split <;> infer_instance

def put (p : List ν) (n : Node β) (t : Tree ν β) : Tree ν β := (p, n) :: t.filter fun e => e.1 ≠ p

def erase (p : List ν) (t : Tree ν β) : Tree ν β := t.filter fun e => e.1 ≠ p

def mkdir (t : Tree ν β) (p : List ν) : Tree ν β := if (node t p).isNone then put p .dir t else t

/-- `mkdir(parents=True, exist_ok=True)`: it fails if the path leads through a file. -/
def mkdirs (p : List ν) (t : Tree ν β) : Option (Tree ν β) :=
  if ∃ q ∈ p.inits, (content t q).isSome then none else some (p.inits.foldl mkdir t)

def files (d : List ν) (t : Tree ν β) : List (List ν) :=
  ((t.map Prod.fst).dedup.filter fun p => d <+: p ∧ (content t p).isSome).map fun p => p.drop d.length

def WellFormed (t : Tree ν β) : Prop :=
  ∀ (p q : List ν), (node t p).isSome → q <+: p → q ≠ p → IsDir t q

variable {t t' : Tree ν β} {p q d : List ν} {n : Node β} {c : β}

theorem node_of_ne_nil (h : p ≠ []) : node t p = (t.find? fun e => e.1 = p).map Prod.snd := by
  cases p with
  | nil => exact absurd rfl h
  | cons a p => rfl

theorem content_eq_some : content t p = some c ↔ node t p = some (.file c) := by
  unfold content
  split
  · next c' h =>
    rw [h]
    simp
  · next h =>
    constructor
    · intro h'
      cases h'
    · intro h'
      exact absurd h' (h c)

theorem isDir_iff : IsDir t p ↔ node t p = some .dir := by
  unfold IsDir
  split
  · next h => simp [h]
  · next h =>
    constructor
    · exact False.elim
    · intro h'
      exact absurd h' h

theorem not_isDir_of_content (h : (content t p).isSome) : ¬ IsDir t p := by
  obtain ⟨c, hc⟩ := Option.isSome_iff_exists.mp h
  rw [isDir_iff, content_eq_some.mp hc]
  simp

theorem isDir_nil : IsDir t [] := trivial

theorem content_congr (h : node t' q = node t p) : content t' q = content t p := by
  unfold content
  rw [h]

theorem mem_of_node (h : (node t p).isSome) (hp : p ≠ []) : p ∈ t.map Prod.fst := by
  obtain ⟨n, hn⟩ := Option.isSome_iff_exists.mp h
  rw [node_of_ne_nil hp] at hn
  obtain ⟨e, he, -⟩ := Option.map_eq_some_iff.mp hn
  have hkey : e.1 = p := by simpa using List.find?_some he
  exact List.mem_map.mpr ⟨e, List.mem_of_find?_eq_some he, hkey⟩

theorem wellFormed_of (h : ∀ p ∈ t.map Prod.fst, ∀ q ∈ p.inits, q ≠ p → IsDir t q) : WellFormed t := by
  intro p q hp hq hne
  by_cases hnil : p = []
  · rw [hnil, List.prefix_nil] at hq
    exact absurd (hq.trans hnil.symm) hne
  · exact h p (mem_of_node hp hnil) q ((List.mem_inits _ _).mpr hq) hne

/-! ### The operations -/

private theorem find?_filter_ne (h : q ≠ p) : (t.filter fun e => e.1 ≠ p).find? (fun e => e.1 = q) = t.find? fun e => e.1 = q := by
  rw [List.find?_filter]
  congr 1
  funext e
  by_cases he : e.1 = q
  · simp [he, h]
  · simp [he]

theorem node_put (hp : p ≠ []) : node (put p n t) q = if q = p then some n else node t q := by
  by_cases hq : q = []
  · subst hq
    rw [if_neg (Ne.symm hp)]
    rfl
  · rw [node_of_ne_nil hq, node_of_ne_nil hq, put, List.find?_cons]
    by_cases h : q = p
    · simp [h]
    · have hne : ¬ p = q := fun he => h he.symm
      simp only [hne, decide_false, h, if_false]
      rw [find?_filter_ne h]

theorem node_erase (hp : p ≠ []) : node (erase p t) q = if q = p then none else node t q := by
  by_cases hq : q = []
  · subst hq
    rw [if_neg (Ne.symm hp)]
    rfl
  · rw [node_of_ne_nil hq, node_of_ne_nil hq, erase]
    by_cases h : q = p
    · subst h
      rw [if_pos rfl, Option.map_eq_none_iff, List.find?_eq_none]
      intro e he
      simpa using (List.mem_filter.mp he).2
    · rw [if_neg h, find?_filter_ne h]

theorem content_put (hp : p ≠ []) : content (put p (.file c) t) q = if q = p then some c else content t q := by
  unfold content
  rw [node_put hp]
  split_ifs
  · rfl
  · rfl

theorem node_mkdir : node (mkdir t p) q = if q = p ∧ (node t p).isNone then some .dir else node t q := by
  unfold mkdir
  split_ifs with h hq hq
  · have hp : p ≠ [] := by
      rintro rfl
      simp [node] at h
    rw [node_put hp, if_pos hq.1]
  · have hp : p ≠ [] := by
      rintro rfl
      simp [node] at h
    rw [node_put hp, if_neg fun hqp => hq ⟨hqp, h⟩]
  · exact absurd hq.2 h
  · rfl

private theorem node_foldl_mkdir {l : List (List ν)} (h : ∀ x ∈ l, content t x = none) :
    node (l.foldl mkdir t) q = if q ∈ l then some .dir else node t q := by
  induction l generalizing t with
  | nil => simp
  | cons x l ih =>
    have hx : content t x = none := h x List.mem_cons_self
    have hdir : (if (node t x).isNone then some .dir else node t x) = some .dir := by
      cases hn : node t x with
      | none => rfl
      | some n =>
        cases n with
        | dir => rfl
        | file c => rw [content_eq_some.mpr hn] at hx; cases hx
    have hnode : ∀ y, node (mkdir t x) y = if y = x then some .dir else node t y := by
      intro y
      rw [node_mkdir]
      by_cases hy : y = x
      · subst hy
        simpa using hdir
      · simp [hy]
    rw [List.foldl_cons, ih]
    · rw [hnode]
      by_cases hq : q ∈ l
      · simp [hq]
      · by_cases hqx : q = x
        · simp [hqx]
        · simp [hq, hqx]
    · intro y hy
      by_cases hyx : y = x
      · have hyn := hnode y
        rw [if_pos hyx] at hyn
        unfold content
        rw [hyn]
      · have hyn := hnode y
        rw [if_neg hyx] at hyn
        rw [content_congr hyn]
        exact h y (List.mem_cons_of_mem x hy)

theorem mkdirs_eq_none : mkdirs p t = none ↔ ∃ q, q <+: p ∧ (content t q).isSome := by
  have hinits : (∃ q ∈ p.inits, (content t q).isSome) ↔ ∃ q, q <+: p ∧ (content t q).isSome := by simp
  rw [← hinits, mkdirs]
  split_ifs with h
  · exact iff_of_true rfl h
  · exact iff_of_false (by simp) h

/-- **What `mkdirs` does**: all folders of the path are there, and everything else is as it was. -/
theorem node_mkdirs (h : mkdirs p t = some t') : node t' q = if q <+: p then some .dir else node t q := by
  unfold mkdirs at h
  split_ifs at h with hfile
  obtain rfl := Option.some.inj h
  push Not at hfile
  rw [node_foldl_mkdir fun x hx => by simpa using hfile x hx]
  simp only [List.mem_inits]

theorem content_mkdirs (h : mkdirs p t = some t') : content t' q = content t q := by
  by_cases hq : q <+: p
  · have hnone : content t q = none := by
      by_contra hsome
      have hfail : mkdirs p t = none := mkdirs_eq_none.mpr ⟨q, hq, Option.isSome_iff_ne_none.mpr hsome⟩
      rw [hfail] at h
      cases h
    rw [hnone]
    unfold content
    rw [node_mkdirs h, if_pos hq]
  · refine content_congr ?_
    rw [node_mkdirs h, if_neg hq]

theorem mem_files : q ∈ files d t ↔ (content t (d ++ q)).isSome := by
  simp only [files, List.mem_map, List.mem_filter, List.mem_dedup, decide_eq_true_eq]
  constructor
  · rintro ⟨p, ⟨-, ⟨r, rfl⟩, hsome⟩, rfl⟩
    rwa [List.drop_left]
  · intro hsome
    refine ⟨d ++ q, ⟨?_, List.prefix_append d q, hsome⟩, List.drop_left⟩
    obtain ⟨c, hc⟩ := Option.isSome_iff_exists.mp hsome
    have hnode := content_eq_some.mp hc
    refine List.mem_map.mp (mem_of_node (by rw [hnode]; rfl) fun hnil => ?_)
    rw [hnil] at hsome
    cases hsome

end Smara.Lib.FileTree
