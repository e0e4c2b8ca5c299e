import Smara.Lib.Regex

/-! # Patterns that are a sequence of classes

A pattern that takes characters of one class after the other, each class once or as often as it can.

* `Spells`: the texts that such a pattern stands for.
* `mem_ends_sequence`: the ways to match it at a place are the texts of it that begin there.
* `mem_finditer`, `finditer_ne_nil`, `finditer_sorted`: what `re.finditer` finds, that it finds something if there is
  a match at all, and that its matches do not overlap. -/

namespace Smara.Lib.Regex

/-- A class of characters; `many` of them at once, or one. -/
structure Item where
  accepts : Char → Bool
  many : Bool

def Item.pattern (i : Item) : Pattern := if i.many then .plus (.char i.accepts) else .char i.accepts

/-- The texts that the class takes. -/
def Item.Takes (i : Item) (w : List Char) : Prop :=
  (∀ c ∈ w, i.accepts c) ∧ if i.many then w ≠ [] else w.length = 1

def sequence (items : List Item) : Pattern := .all (items.map Item.pattern)

/-- **The texts that a sequence stands for.** -/
def Spells : List Item → List Char → Prop
  | [], w => w = []
  | i :: items, w => ∃ u v, w = u ++ v ∧ i.Takes u ∧ Spells items v

variable {text : List Char} {p : Char → Bool} {place last : Place}

def Place.behind (place : Place) (w : List Char) : Place := { place with position := place.position + w.length }

/-! ### One class -/

theorem cons_prefix_drop {c : Char} {w : List Char} {n : ℕ} :
    c :: w <+: text.drop n ↔ text[n]? = some c ∧ w <+: text.drop (n + 1) := by
  rw [← List.drop_drop, ← List.head?_drop]
  cases text.drop n with
  | nil => simp
  | cons d rest => simp [List.cons_prefix_cons, eq_comm]

theorem mem_ends_char : last ∈ (Pattern.char p).ends text place ↔
    ∃ c, p c ∧ text[place.position]? = some c ∧ last = place.behind [c] := by
  unfold Pattern.ends
  cases text[place.position]? with
  | none => simp
  | some c =>
    by_cases hc : p c
    · simp [hc, Place.behind]
    · simp [hc]

theorem mem_iterate_char (least fuel : ℕ) : ∀ count place,
    last ∈ iterate ((Pattern.char p).ends text) least none fuel count place ↔
      ∃ w : List Char, (∀ c ∈ w, p c) ∧ w <+: text.drop place.position ∧ w.length ≤ fuel ∧ least ≤ count + w.length ∧
        last = place.behind w := by
  induction fuel with
  | zero =>
    intro count place
    unfold iterate
    constructor
    · intro h
      split_ifs at h with hleast
      · exact ⟨[], by simp, List.nil_prefix, Nat.le_refl _, hleast, by simpa [Place.behind] using h⟩
      · cases h
    · rintro ⟨w, -, -, hlen, hleast, rfl⟩
      obtain rfl := List.length_eq_zero_iff.mp (Nat.le_zero.mp hlen)
      rw [if_pos (by simpa using hleast)]
      simp [Place.behind]
  | succ fuel ih =>
    intro count place
    unfold iterate
    rw [List.mem_append, if_neg (by simp), List.mem_flatMap]
    constructor
    · rintro (⟨next, hnext, hlast⟩ | hlast)
      · obtain ⟨c, hc, hget, rfl⟩ := mem_ends_char.mp (List.mem_filter.mp hnext).1
        obtain ⟨w, hw, hprefix, hlen, hleast, rfl⟩ := (ih _ _).mp hlast
        refine ⟨c :: w, List.forall_mem_cons.mpr ⟨hc, hw⟩, cons_prefix_drop.mpr ⟨hget, hprefix⟩, ?_, ?_, ?_⟩
        · simpa using hlen
        · rw [List.length_cons]
          omega
        · simp [Place.behind, Nat.add_assoc, Nat.add_comm 1]
      · split_ifs at hlast with hleast
        · exact ⟨[], by simp, List.nil_prefix, by simp, hleast, by simpa [Place.behind] using hlast⟩
        · cases hlast
    · rintro ⟨w, hw, hprefix, hlen, hleast, rfl⟩
      cases w with
      | nil =>
        refine Or.inr ?_
        rw [if_pos (by simpa using hleast)]
        simp [Place.behind]
      | cons c w =>
        obtain ⟨hc, hw⟩ := List.forall_mem_cons.mp hw
        obtain ⟨hget, hprefix⟩ := cons_prefix_drop.mp hprefix
        refine Or.inl ⟨place.behind [c], List.mem_filter.mpr ⟨mem_ends_char.mpr ⟨c, hc, hget, rfl⟩, ?_⟩, ?_⟩
        · simp [Place.behind]
        · refine (ih _ _).mpr ⟨w, hw, hprefix, by simpa using hlen, ?_, ?_⟩
          · rw [List.length_cons] at hleast
            omega
          · simp [Place.behind, Nat.add_assoc, Nat.add_comm 1]

theorem mem_ends_item {i : Item} : last ∈ i.pattern.ends text place ↔
    ∃ w, i.Takes w ∧ w <+: text.drop place.position ∧ last = place.behind w := by
  unfold Item.pattern Item.Takes
  split_ifs with hmany
  · show last ∈ iterate ((Pattern.char i.accepts).ends text) 1 none (text.length + 1) 0 place ↔ _
    rw [mem_iterate_char]
    constructor
    · rintro ⟨w, hw, hprefix, -, hleast, rfl⟩
      refine ⟨w, ⟨hw, ?_⟩, hprefix, rfl⟩
      rintro rfl
      exact absurd hleast (by simp)
    · rintro ⟨w, ⟨hw, hne⟩, hprefix, rfl⟩
      have hlen := hprefix.length_le
      rw [List.length_drop] at hlen
      have := List.length_pos_iff.mpr hne
      exact ⟨w, hw, hprefix, by omega, by omega, rfl⟩
  · rw [mem_ends_char]
    constructor
    · rintro ⟨c, hc, hget, rfl⟩
      exact ⟨[c], ⟨by simpa using hc, rfl⟩, cons_prefix_drop.mpr ⟨hget, List.nil_prefix⟩, rfl⟩
    · rintro ⟨w, ⟨hw, hone⟩, hprefix, rfl⟩
      obtain ⟨c, rfl⟩ := List.length_eq_one_iff.mp hone
      exact ⟨c, hw c (by simp), (cons_prefix_drop.mp hprefix).1, rfl⟩

/-! ### A sequence -/

theorem append_prefix_drop {u v : List Char} {n : ℕ} :
    u ++ v <+: text.drop n ↔ u <+: text.drop n ∧ v <+: text.drop (n + u.length) := by
  constructor
  · intro h
    have hu : u <+: text.drop n := (List.prefix_append u v).trans h
    obtain ⟨rest, hrest⟩ := h
    refine ⟨hu, ⟨rest, ?_⟩⟩
    rw [← List.drop_drop, ← hrest, List.append_assoc, List.drop_left]
  · rintro ⟨⟨rest, hrest⟩, hv⟩
    rw [← List.drop_drop, ← hrest, List.drop_left] at hv
    rw [← hrest]
    exact (List.prefix_append_right_inj u).mpr hv

/-- **The ways to match a sequence** at a place are its texts that begin there. -/
theorem mem_ends_sequence {items : List Item} : last ∈ (sequence items).ends text place ↔
    ∃ w, Spells items w ∧ w <+: text.drop place.position ∧ last = place.behind w := by
  induction items generalizing place with
  | nil =>
    show last ∈ [place] ↔ _
    constructor
    · intro h
      exact ⟨[], rfl, List.nil_prefix, by simpa [Place.behind] using h⟩
    · rintro ⟨w, rfl, -, rfl⟩
      simp [Place.behind]
  | cons i items ih =>
    show last ∈ (i.pattern.ends text place).flatMap ((sequence items).ends text) ↔ _
    rw [List.mem_flatMap]
    constructor
    · rintro ⟨next, hnext, hlast⟩
      obtain ⟨u, hu, hpre, rfl⟩ := mem_ends_item.mp hnext
      obtain ⟨v, hv, hpost, rfl⟩ := ih.mp hlast
      exact ⟨u ++ v, ⟨u, v, rfl, hu, hv⟩, append_prefix_drop.mpr ⟨hpre, hpost⟩,
        by simp [Place.behind, Nat.add_assoc]⟩
    · rintro ⟨w, ⟨u, v, rfl, hu, hv⟩, hprefix, rfl⟩
      obtain ⟨hpre, hpost⟩ := append_prefix_drop.mp hprefix
      exact ⟨place.behind u, mem_ends_item.mpr ⟨u, hu, hpre, rfl⟩,
        ih.mpr ⟨v, hv, hpost, by simp [Place.behind, Nat.add_assoc]⟩⟩

/-! ### The matches of a text -/

variable {r : Pattern}

theorem searchFrom_some {after : Option ℕ} {start : ℕ} {m : Match} (h : searchFrom text r after start = some m) :
    start ≤ m.start ∧ m.start ≤ text.length ∧ m.text = (text.take m.stop).drop m.start ∧
      ∃ place ∈ r.ends text ⟨m.start, []⟩, place.position = m.stop := by
  obtain ⟨s, hs, hmatch⟩ := List.exists_of_findSome?_eq_some h
  obtain ⟨place, hplace, rfl⟩ := Option.map_eq_some_iff.mp hmatch
  rw [List.mem_range'_1] at hs
  exact ⟨hs.1, by dsimp only; omega, rfl, place, List.mem_of_find?_eq_some hplace, rfl⟩

theorem mem_finditerFrom (fuel : ℕ) : ∀ (after : Option ℕ) (start : ℕ) {m : Match},
    m ∈ finditerFrom text r fuel after start → m.text = (text.take m.stop).drop m.start ∧ m.start ≤ text.length ∧
      ∃ place ∈ r.ends text ⟨m.start, []⟩, place.position = m.stop := by
  induction fuel with
  | zero => exact fun _ _ _ h => absurd h List.not_mem_nil
  | succ fuel ih =>
    intro after start m h
    unfold finditerFrom at h
    split at h
    · cases h
    · next first hfirst =>
      rcases List.mem_cons.mp h with rfl | h
      · have hsome := searchFrom_some hfirst
        exact ⟨hsome.2.2.1, hsome.2.1, hsome.2.2.2⟩
      · exact ih _ _ h

/-- **A match that is found** is one at its place. -/
theorem mem_finditer {m : Match} (h : m ∈ finditer r text) : m.text = (text.take m.stop).drop m.start ∧
    m.start ≤ text.length ∧ ∃ place ∈ r.ends text ⟨m.start, []⟩, place.position = m.stop :=
  mem_finditerFrom _ _ _ h

/-- **Something is found** if there is a match at all. -/
theorem finditer_ne_nil {start : ℕ} (hle : start ≤ text.length) (h : place ∈ r.ends text ⟨start, []⟩) :
    finditer r text ≠ [] := by
  have hsome : (searchFrom text r none 0).isSome := by
    rw [searchFrom, List.findSome?_isSome_iff]
    refine ⟨start, List.mem_range'_1.mpr (by omega), ?_⟩
    rw [matchAt, Option.isSome_map, List.find?_isSome]
    exact ⟨place, h, by simp⟩
  obtain ⟨m, hm⟩ := Option.isSome_iff_exists.mp hsome
  rw [finditer, finditerFrom, hm]
  exact List.cons_ne_nil _ _

theorem finditerFrom_sorted (hends : ∀ place, ∀ last ∈ r.ends text place, place.position ≤ last.position) (fuel : ℕ) :
    ∀ (after : Option ℕ) (start : ℕ), (∀ m ∈ finditerFrom text r fuel after start, start ≤ m.start) ∧
      (finditerFrom text r fuel after start).Pairwise fun a b => a.stop ≤ b.start := by
  induction fuel with
  | zero => exact fun _ _ => ⟨fun _ h => absurd h List.not_mem_nil, List.Pairwise.nil⟩
  | succ fuel ih =>
    intro after start
    unfold finditerFrom
    split
    · exact ⟨fun _ h => absurd h List.not_mem_nil, List.Pairwise.nil⟩
    · next first hfirst =>
      obtain ⟨hstart, -, -, last, hlast, hstop⟩ := searchFrom_some hfirst
      have hle : first.start ≤ first.stop := hstop ▸ hends _ last hlast
      obtain ⟨hrest, hsorted⟩ := ih (if first.stop = first.start then some first.stop else none) first.stop
      refine ⟨List.forall_mem_cons.mpr ⟨hstart, fun m hm => ?_⟩, List.pairwise_cons.mpr ⟨hrest, hsorted⟩⟩
      have := hrest m hm
      omega

/-- **The matches are in order**, if a match never goes back. -/
theorem finditer_sorted (hends : ∀ place, ∀ last ∈ r.ends text place, place.position ≤ last.position) :
    (finditer r text).Pairwise fun a b => a.stop ≤ b.start := (finditerFrom_sorted hends _ _ _).2

end Smara.Lib.Regex
