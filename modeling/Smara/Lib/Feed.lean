import Mathlib.Data.List.Nodup
import Mathlib.Order.Lattice

/-! # Feeds read with a cursor

Entries are appended to a log and have keys in a linear order. A reader asks again and again for the
entries above the last one it has seen, and is given them in the order of their keys.

* `Consistent.read`: if every entry has been above the cursor when it was appended, a reading leaves
  the reader with every entry of the log, in order.
* `Missed.read`: an entry that was not above the cursor when it was appended is never returned.
* `upTo_append_page`: a page of the next entries continues what was read up to the cursor. -/

namespace Smara.Lib.Feed

variable {α κ : Type*} [LinearOrder κ] (key : α → κ)

/-- A log in the order of its appends, and what its reader has been given. -/
structure Subscription (α : Type*) where
  log : List α
  seen : List α

def Above (f : Subscription α) (x : α) : Prop := ∀ l ∈ f.seen.getLast?, key l < key x

structure Reads (f : Subscription α) (out : List α) : Prop where
  ordered : out.Pairwise (key · < key ·)
  mem : ∀ x, x ∈ out ↔ x ∈ f.log ∧ Above key f x

/-- The reader has, in order, entries of the log, and all those that are not above its cursor. -/
structure Consistent (f : Subscription α) : Prop where
  ordered : f.seen.Pairwise (key · < key ·)
  sound : ∀ x ∈ f.seen, x ∈ f.log
  complete : ∀ x ∈ f.log, ¬ Above key f x → x ∈ f.seen

/-- The reader does not have the entry, and its cursor is past it. -/
def Missed (f : Subscription α) (x : α) : Prop := x ∈ f.log ∧ x ∉ f.seen ∧ ¬ Above key f x

variable {key} {f : Subscription α} {out xs : List α} {x : α}

theorem le_getLast {l : List α} (h : l.Pairwise (key · < key ·)) {a m : α} (ha : a ∈ l)
    (hm : m ∈ l.getLast?) : key a ≤ key m := by
  obtain ⟨init, rfl⟩ : ∃ init, l = init ++ [m] := by
    rw [Option.mem_def, List.getLast?_eq_some_iff] at hm
    exact hm
  rcases List.mem_append.mp ha with ha | ha
  · exact ((List.pairwise_append.mp h).2.2 a ha m (by simp)).le
  · rw [List.mem_singleton.mp ha]

theorem consistent_start (log : List α) : Consistent key ⟨log, []⟩ :=
  ⟨List.Pairwise.nil, by simp, fun x _ h => absurd (by simp [Above]) h⟩

theorem Consistent.commit (h : Consistent key f) (hx : ∀ x ∈ xs, Above key f x) :
    Consistent key ⟨f.log ++ xs, f.seen⟩ := by
  refine ⟨h.ordered, fun x hs => List.mem_append_left _ (h.sound x hs), fun x hm hn => ?_⟩
  rcases List.mem_append.mp hm with hm | hm
  · exact h.complete x hm hn
  · exact absurd (hx x hm) hn

/-- **A reading of a consistent feed** brings everything. -/
theorem Consistent.read (h : Consistent key f) (hr : Reads key f out) :
    Consistent key ⟨f.log, f.seen ++ out⟩ ∧ ∀ x ∈ f.log, x ∈ f.seen ++ out := by
  have hall : ∀ x ∈ f.log, x ∈ f.seen ++ out := fun x hx => by
    by_cases ha : Above key f x
    · exact List.mem_append_right _ ((hr.mem x).mpr ⟨hx, ha⟩)
    · exact List.mem_append_left _ (h.complete x hx ha)
  refine ⟨⟨List.pairwise_append.mpr ⟨h.ordered, hr.ordered, fun a ha b hb => ?_⟩, fun x hx => ?_,
    fun x hx _ => hall x hx⟩, hall⟩
  · have hne : f.seen ≠ [] := List.ne_nil_of_mem ha
    have hlast : f.seen.getLast hne ∈ f.seen.getLast? := by simp [List.getLast?_eq_getLast_of_ne_nil hne]
    calc key a ≤ key (f.seen.getLast hne) := le_getLast h.ordered ha hlast
      _ < key b := ((hr.mem b).mp hb).2 _ hlast
  · rcases List.mem_append.mp hx with hx | hx
    · exact h.sound x hx
    · exact ((hr.mem x).mp hx).1

theorem missed_of_commit (h : Consistent key f) (hx : x ∈ xs) (hnew : x ∉ f.log)
    (hbelow : ¬ Above key f x) : Missed key ⟨f.log ++ xs, f.seen⟩ x :=
  ⟨List.mem_append_right _ hx, fun hs => hnew (h.sound x hs), hbelow⟩

theorem Missed.commit (h : Missed key f x) : Missed key ⟨f.log ++ xs, f.seen⟩ x :=
  ⟨List.mem_append_left _ h.1, h.2⟩

/-- **What is missed is never returned.** -/
theorem Missed.read (h : Missed key f x) (hr : Reads key f out) :
    Missed key ⟨f.log, f.seen ++ out⟩ x := by
  obtain ⟨hlog, hseen, hbelow⟩ := h
  refine ⟨hlog, fun hx => ?_, fun ha => hbelow fun l hl => ?_⟩
  · rcases List.mem_append.mp hx with hx | hx
    · exact hseen hx
    · exact hbelow ((hr.mem x).mp hx).2
  · -- the cursor only moves up
    cases hlast : out.getLast? with
    | none => exact ha l (by simpa [List.getLast?_append, hlast] using hl)
    | some m =>
      have hm : key l < key m := ((hr.mem m).mp (List.mem_of_getLast? hlast)).2 l hl
      have hmx : key m < key x := ha m (by simp [List.getLast?_append, hlast])
      exact hm.trans hmx

theorem count_eq_one [DecidableEq α] {l : List α} (h : l.Pairwise (key · < key ·)) (hx : x ∈ l) :
    l.count x = 1 := by
  have hnodup : l.Nodup := h.imp fun hlt he => by
    rw [he] at hlt
    exact lt_irrefl _ hlt
  exact List.count_eq_one_of_mem hnodup hx

/-! ### Pages -/

section Paged
variable {l : List α} {c : κ}

section Pages
variable (key)

def upTo (c : κ) (l : List α) : List α := l.filter fun x => key x ≤ c

/-- The next `n` entries after the cursor. -/
def page (n : ℕ) (c : κ) (l : List α) : List α := (l.filter fun x => c < key x).take n

def cursorAfter (c : κ) (rows : List α) : κ := (rows.getLast?.map key).getD c

end Pages

theorem take_eq_upTo (h : l.Pairwise (key · < key ·)) {n : ℕ} {m : α}
    (hm : m ∈ (l.take n).getLast?) : l.take n = upTo key (key m) l := by
  have hsplit := (List.take_append_drop n l).symm
  have hpair : (l.take n ++ l.drop n).Pairwise (key · < key ·) := by
    rw [List.take_append_drop]
    exact h
  have hle : ∀ x ∈ l.take n, key x ≤ key m :=
    fun x hx => le_getLast (List.pairwise_append.mp hpair).1 hx hm
  have hlt : ∀ x ∈ l.drop n, ¬ key x ≤ key m := fun x hx =>
    not_le.mpr ((List.pairwise_append.mp hpair).2.2 m (List.mem_of_getLast? hm) x hx)
  have htake : upTo key (key m) (l.take n) = l.take n :=
    List.filter_eq_self.mpr fun x hx => decide_eq_true (hle x hx)
  have hdrop : upTo key (key m) (l.drop n) = [] :=
    List.filter_eq_nil_iff.mpr fun x hx hx' => hlt x hx (of_decide_eq_true hx')
  have happend : upTo key (key m) (l.take n ++ l.drop n) = l.take n := by
    unfold upTo at htake hdrop ⊢
    rw [List.filter_append, htake, hdrop, List.append_nil]
  rw [List.take_append_drop] at happend
  exact happend.symm

/-- **A page continues what was read.** -/
theorem upTo_append_page (h : l.Pairwise (key · < key ·)) (n : ℕ) (c : κ) :
    upTo key c l ++ page key n c l = upTo key (cursorAfter key c (page key n c l)) l := by
  unfold cursorAfter
  cases hlast : (page key n c l).getLast? with
  | none =>
    have hnil := List.getLast?_eq_none_iff.mp hlast
    rw [hnil, List.append_nil]
    rfl
  | some m =>
    have hm : c < key m := by
      have hmem := List.mem_of_mem_take (List.mem_of_getLast? hlast)
      exact of_decide_eq_true (List.mem_filter.mp hmem).2
    have hpage := take_eq_upTo (h.filter fun x => c < key x) (n := n) hlast
    unfold page
    rw [hpage]
    change upTo key c l ++ _ = upTo key (key m) l
    unfold upTo
    rw [List.filter_filter]
    clear hlast hpage
    induction l with
    | nil => rfl
    | cons x l ih =>
      obtain ⟨hx, hl⟩ := List.pairwise_cons.mp h
      by_cases hc : key x ≤ c
      · have hnot : ¬ c < key x := not_lt.mpr hc
        have hxm : key x ≤ key m := hc.trans hm.le
        simp only [List.filter_cons, hc, hnot, hxm, decide_true, decide_false, Bool.and_false, if_true,
          Bool.false_eq_true, if_false, List.cons_append, ih hl]
      · have hnone : (x :: l).filter (fun x => key x ≤ c) = [] := by
          refine List.filter_eq_nil_iff.mpr fun y hy hy' => hc ?_
          rcases List.mem_cons.mp hy with rfl | hy
          · exact of_decide_eq_true hy'
          · exact (hx y hy).le.trans (of_decide_eq_true hy')
        have hall : ∀ y ∈ x :: l, c < key y := by
          intro y hy
          rcases List.mem_cons.mp hy with rfl | hy
          · exact not_le.mp hc
          · exact (not_le.mp hc).trans (hx y hy)
        rw [hnone, List.nil_append]
        refine List.filter_congr fun y hy => ?_
        rw [decide_eq_true (hall y hy), Bool.and_true]

theorem upTo_append (h : ∀ x ∈ xs, c < key x) : upTo key c (l ++ xs) = upTo key c l := by
  have hnone : upTo key c xs = [] :=
    List.filter_eq_nil_iff.mpr fun x hx hx' => not_le.mpr (h x hx) (of_decide_eq_true hx')
  unfold upTo at hnone ⊢
  rw [List.filter_append, hnone, List.append_nil]

end Paged

end Smara.Lib.Feed
