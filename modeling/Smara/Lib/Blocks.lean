import Mathlib.Data.List.Basic

/-! # Blocks of a list

A list is cut where an element starts a block, by the positions of these elements.

* `starts`, `cuts`: the positions, and the pieces from each of them to the next.
* `cuts_starts`: of a list that is put together of blocks, the pieces are the blocks. -/

namespace Smara.Lib.Blocks

variable {α : Type*} (p : α → Prop) [DecidablePred p]

/-- The positions of the elements that start a block, if the first element is at `n`. -/
def starts (n : ℕ) (l : List α) : List ℕ := ((l.zipIdx n).filter fun a => p a.1).map Prod.snd

def cuts (l : List α) (places : List ℕ) : List (List α) :=
  (places.zip (places.tail ++ [l.length])).map fun place => (l.take place.2).drop place.1

/-- The positions of blocks, if the first is at `n`. -/
def offsets : ℕ → List (List α) → List ℕ
  | _, [] => []
  | n, block :: blocks => n :: offsets (n + block.length) blocks

variable {p} {l : List α} {blocks : List (List α)}

theorem starts_cons (n : ℕ) (a : α) (l : List α) :
    starts p n (a :: l) = if p a then n :: starts p (n + 1) l else starts p (n + 1) l := by
  unfold starts
  rw [List.zipIdx_cons, List.filter_cons]
  by_cases ha : p a
  · simp [ha]
  · simp [ha]

theorem starts_append (n : ℕ) (l l' : List α) : starts p n (l ++ l') = starts p n l ++ starts p (n + l.length) l' := by
  unfold starts
  rw [List.zipIdx_append, List.filter_append, List.map_append]

theorem length_starts (n : ℕ) (l : List α) : (starts p n l).length = l.countP p := by
  induction l generalizing n with
  | nil => rfl
  | cons a l ih =>
    rw [starts_cons, List.countP_cons]
    by_cases ha : p a
    · simp [ha, ih]
    · simp [ha, ih]

theorem starts_eq_nil (n : ℕ) (h : ∀ a ∈ l, ¬ p a) : starts p n l = [] := by
  rw [← List.length_eq_zero_iff, length_starts, List.countP_eq_zero]
  simpa using h

theorem length_cuts (l : List α) (places : List ℕ) : (cuts l places).length = places.length := by
  rw [cuts, List.length_map, List.length_zip, List.length_append, List.length_tail, List.length_singleton]
  omega

def IsBlock (p : α → Prop) (block : List α) : Prop := ∃ a rest, block = a :: rest ∧ p a ∧ ∀ b ∈ rest, ¬ p b

theorem starts_flatten (n : ℕ) (h : ∀ block ∈ blocks, IsBlock p block) : starts p n blocks.flatten = offsets n blocks := by
  induction blocks generalizing n with
  | nil => rfl
  | cons block blocks ih =>
    obtain ⟨⟨a, rest, rfl, ha, hrest⟩, hblocks⟩ := List.forall_mem_cons.mp h
    rw [List.flatten_cons, starts_append, ih _ hblocks, starts_cons, if_pos ha, starts_eq_nil _ hrest, offsets]
    rfl

theorem cuts_offsets (pre : List α) (blocks : List (List α)) :
    cuts (pre ++ blocks.flatten) (offsets pre.length blocks) = blocks := by
  induction blocks generalizing pre with
  | nil => rfl
  | cons block blocks ih =>
    have hwhole : pre ++ (block :: blocks).flatten = (pre ++ block) ++ blocks.flatten := by
      rw [List.flatten_cons, List.append_assoc]
    have hnext : ∃ places, offsets (pre.length + block.length) blocks ++ [(pre ++ (block :: blocks).flatten).length] =
        (pre.length + block.length) :: places ∧
        places = (offsets (pre ++ block).length blocks).tail ++ [((pre ++ block) ++ blocks.flatten).length] ∨
        blocks = [] := by
      cases blocks with
      | nil => exact ⟨[], Or.inr rfl⟩
      | cons next blocks =>
        refine ⟨_, Or.inl ⟨?_, rfl⟩⟩
        rw [← List.length_append, hwhole]
        rfl
    have hfirst : ((pre ++ (block :: blocks).flatten).take (pre.length + block.length)).drop pre.length = block := by
      rw [hwhole, ← List.length_append, List.take_left, List.drop_left]
    obtain ⟨places, ⟨hplaces, rfl⟩ | rfl⟩ := hnext
    · rw [cuts, offsets, List.tail_cons, hplaces, List.zip_cons_cons, List.map_cons, hfirst, hwhole,
        ← List.length_append]
      exact congrArg _ (ih (pre ++ block))
    · have hlength : (pre ++ [block].flatten).length = pre.length + block.length := by simp
      rw [cuts, offsets, offsets, List.tail_cons, List.nil_append, hlength, List.zip_cons_cons, List.map_cons, hfirst]
      rfl

/-- **Blocks.** What is before the first of them, and the blocks. -/
theorem cuts_starts {pre : List α} (hpre : ∀ a ∈ pre, ¬ p a) (h : ∀ block ∈ blocks, IsBlock p block) :
    starts p 0 (pre ++ blocks.flatten) = offsets pre.length blocks ∧
      cuts (pre ++ blocks.flatten) (starts p 0 (pre ++ blocks.flatten)) = blocks := by
  have hstarts : starts p 0 (pre ++ blocks.flatten) = offsets pre.length blocks := by
    rw [starts_append, starts_eq_nil 0 hpre, Nat.zero_add, starts_flatten _ h, List.nil_append]
  exact ⟨hstarts, by rw [hstarts, cuts_offsets]⟩

theorem exists_blocks (p : α → Prop) [DecidablePred p] (l : List α) :
    ∃ pre blocks, l = pre ++ List.flatten blocks ∧ (∀ a ∈ pre, ¬ p a) ∧ ∀ block ∈ blocks, IsBlock p block := by
  induction l with
  | nil => exact ⟨[], [], rfl, by simp, by simp⟩
  | cons a l ih =>
    obtain ⟨pre, blocks, rfl, hpre, hblocks⟩ := ih
    by_cases ha : p a
    · refine ⟨[], (a :: pre) :: blocks, rfl, by simp, List.forall_mem_cons.mpr ⟨⟨a, pre, rfl, ha, hpre⟩, hblocks⟩⟩
    · exact ⟨a :: pre, blocks, rfl, List.forall_mem_cons.mpr ⟨ha, hpre⟩, hblocks⟩

end Smara.Lib.Blocks
