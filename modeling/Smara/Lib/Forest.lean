import Smara.Lib.Acyclic

/-! # Forests given by parent links

A list of nodes, each with a key and the key of its parent or none. `At k n` says that the node with key `k`
is `n` links below a root. Nodes with keys of their own all hang below roots exactly when every parent is the
key of a node and no node is above itself (`grounded_iff`), and a depth is less than the number of nodes
(`At.lt_length`). -/

namespace Smara.Lib.Forest

open Relation (TransGen)
open Lib.Acyclic

section Defs
variable {α κ : Type*} (key : α → κ) (up : α → Option κ) (l : List α)

/-- `a` is the parent of the node with key `b`. -/
def Parent (a b : κ) : Prop := ∃ x ∈ l, key x = b ∧ up x = some a

def Known : Prop := ∀ x ∈ l, ∀ p, up x = some p → p ∈ l.map key

/-- The node with key `k` is `n` links below a root. -/
inductive At : κ → ℕ → Prop
  | root {x k} (hx : x ∈ l) (hk : key x = k) (hup : up x = none) : At k 0
  | child {x k p n} (hx : x ∈ l) (hk : key x = k) (hup : up x = some p) (hp : At p n) : At k (n + 1)

/-- Every node is below a root. -/
def Grounded : Prop := ∀ x ∈ l, ∃ n, At key up l (key x) n

end Defs

variable {α κ : Type*} {key : α → κ} {up : α → Option κ} {l : List α} {k p : κ} {m n : ℕ}

theorem At.mem (h : At key up l k n) : k ∈ l.map key := by
  cases h with
  | root hx hk _ => exact List.mem_map.mpr ⟨_, hx, hk⟩
  | child hx hk _ _ => exact List.mem_map.mpr ⟨_, hx, hk⟩

section Unique
variable (hkeys : (l.map key).Nodup)
include hkeys

theorem At.unique (h : At key up l k m) (h' : At key up l k n) : m = n := by
  induction h generalizing n with
  | root hx hk hup =>
    cases h' with
    | root => rfl
    | child hy hk' hup' _ =>
      obtain rfl := List.inj_on_of_nodup_map hkeys hx hy (hk.trans hk'.symm)
      rw [hup] at hup'
      cases hup'
  | child hx hk hup hp ih =>
    cases h' with
    | root hy hk' hup' =>
      obtain rfl := List.inj_on_of_nodup_map hkeys hx hy (hk.trans hk'.symm)
      rw [hup] at hup'
      cases hup'
    | child hy hk' hup' hp' =>
      obtain rfl := List.inj_on_of_nodup_map hkeys hx hy (hk.trans hk'.symm)
      obtain rfl := Option.some.inj (hup.symm.trans hup')
      rw [ih hp']

theorem At.parent (h : At key up l k n) {x : α} (hx : x ∈ l) (hk : key x = k) (hup : up x = some p) :
    ∃ m, n = m + 1 ∧ At key up l p m := by
  cases h with
  | root hy hk' hup' =>
    obtain rfl := List.inj_on_of_nodup_map hkeys hx hy (hk.trans hk'.symm)
    rw [hup] at hup'
    cases hup'
  | child hy hk' hup' hp =>
    obtain rfl := List.inj_on_of_nodup_map hkeys hx hy (hk.trans hk'.symm)
    obtain rfl := Option.some.inj (hup.symm.trans hup')
    exact ⟨_, rfl, hp⟩

theorem At.lineage (h : At key up l k n) :
    ∃ ks : List κ, ks.length = n + 1 ∧ ks.Nodup ∧ ∀ j ∈ ks, ∃ m ≤ n, At key up l j m := by
  induction h with
  | root hx hk hup => exact ⟨[_], rfl, List.nodup_singleton _, by simpa using At.root hx hk hup⟩
  | @child x k p n hx hk hup hp ih =>
    obtain ⟨ks, hlength, hnodup, hdepth⟩ := ih
    have hchild : At key up l k (n + 1) := .child hx hk hup hp
    refine ⟨k :: ks, by simp [hlength], List.nodup_cons.mpr ⟨fun hmem => ?_, hnodup⟩, ?_⟩
    · obtain ⟨m, hm, hat⟩ := hdepth k hmem
      have := hat.unique hkeys hchild
      omega
    · rintro j hj
      rcases List.mem_cons.mp hj with rfl | hj
      · exact ⟨n + 1, le_rfl, hchild⟩
      · obtain ⟨m, hm, hat⟩ := hdepth j hj
        exact ⟨m, by omega, hat⟩

theorem At.lt_length (h : At key up l k n) : n < l.length := by
  obtain ⟨ks, hlength, hnodup, hdepth⟩ := h.lineage hkeys
  have hsub : ks ⊆ l.map key := by
    intro j hj
    obtain ⟨m, -, hat⟩ := hdepth j hj
    exact hat.mem
  have := (hnodup.subperm hsub).length_le
  rw [List.length_map] at this
  omega

theorem At.above {a b : κ} (h : TransGen (Parent key up l) a b) (hb : At key up l b n) :
    ∃ m < n, At key up l a m := by
  induction h using TransGen.head_induction_on with
  | single h =>
    obtain ⟨x, hx, hk, hup⟩ := h
    obtain ⟨m, rfl, hat⟩ := hb.parent hkeys hx hk hup
    exact ⟨m, by omega, hat⟩
  | head h _ ih =>
    obtain ⟨m, hm, hc⟩ := ih
    obtain ⟨x, hx, hk, hup⟩ := h
    obtain ⟨m', rfl, hat⟩ := hc.parent hkeys hx hk hup
    exact ⟨m', by omega, hat⟩

/-- **Forests.** Every node is below a root exactly when the parents are known and acyclic. -/
theorem grounded_iff : Grounded key up l ↔ Known key up l ∧ Acyclic (Parent key up l) := by
  constructor
  · intro h
    refine ⟨fun x hx p hup => ?_, fun a ha => ?_⟩
    · obtain ⟨n, hat⟩ := h x hx
      obtain ⟨m, -, hp⟩ := hat.parent hkeys hx rfl hup
      exact hp.mem
    · have hmem : ∃ b, Parent key up l b a := by
        cases ha with
        | single h => exact ⟨a, h⟩
        | tail _ h => exact ⟨_, h⟩
      obtain ⟨b, x, hx, rfl, -⟩ := hmem
      obtain ⟨n, hat⟩ := h x hx
      obtain ⟨m, hm, hat'⟩ := At.above hkeys ha hat
      have := hat.unique hkeys hat'
      omega
  · rintro ⟨hknown, hacyclic⟩ x hx
    by_contra hno
    have hclosed : ∀ a b, Parent key up l a b → a ∈ l.map key := by
      rintro a b ⟨y, hy, -, hup⟩
      exact hknown y hy a hup
    -- among those below no root, one has a parent that is below a root
    obtain ⟨a, ha, hopen, hfirst⟩ := exists_first hacyclic hclosed
      (p := fun k => ¬ ∃ n, At key up l k n) hno (List.mem_map_of_mem hx)
    obtain ⟨y, hy, rfl⟩ := List.mem_map.mp ha
    cases hup : up y with
    | none => exact hopen ⟨0, .root hy rfl hup⟩
    | some p =>
      obtain ⟨n, hp⟩ := not_not.mp (hfirst p ⟨y, hy, rfl, hup⟩)
      exact hopen ⟨n + 1, .child hy rfl hup hp⟩

end Unique

end Smara.Lib.Forest
