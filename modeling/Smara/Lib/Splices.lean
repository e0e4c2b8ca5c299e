import Mathlib.Data.List.Sort

/-! # Replacing spans from the back to the front

The spans of a list are replaced one after the other, the last one first, each where it was in the list at the
beginning. If spans overlap, then the next one is cut out of what has replaced the one before.

* `replaceSpans`: the loop; `map_replaceSpans`: what it does to the elements.
* `woven`: its result, element by element: a place of the list, or a new one.
* `Room`: a cut never reaches behind what is new. `kept_woven_iff`: **all that is outside of the spans stays** if and
  only if there is room. -/

namespace Smara.Lib.Splices

variable {α β : Type*}

abbrev Span := ℕ × ℕ

def replaceSpans (repl : Span → List α) (spans : List Span) (l : List α) : List α :=
  spans.foldr (fun span l => l.take span.1 ++ repl span ++ l.drop span.2) l

theorem map_replaceSpans (f : α → β) (repl : Span → List α) (spans : List Span) (l : List α) :
    (replaceSpans repl spans l).map f = replaceSpans (fun span => (repl span).map f) spans (l.map f) := by
  induction spans with
  | nil => rfl
  | cons span spans ih =>
    simp only [replaceSpans, List.foldr_cons] at ih ⊢
    rw [List.map_append, List.map_append, List.map_take, List.map_drop, ih]

/-- **The result, element by element**: the places that stay, and new elements. -/
def woven (repl : Span → List β) (spans : List Span) (n : ℕ) : List (ℕ ⊕ β) :=
  replaceSpans (fun span => (repl span).map Sum.inr) spans ((List.range n).map Sum.inl)

def kept (t : List (ℕ ⊕ β)) : List ℕ := t.filterMap Sum.getLeft?

def outside (spans : List Span) (n : ℕ) : List ℕ :=
  (List.range n).filter fun i => ∀ span ∈ spans, i < span.1 ∨ span.2 ≤ i

structure InOrder (spans : List Span) (n : ℕ) : Prop where
  inside : ∀ span ∈ spans, span.1 ≤ span.2 ∧ span.2 ≤ n
  sorted : spans.Pairwise fun a b => a.1 ≤ b.1 ∧ a.2 ≤ b.2

/-- Where the first span begins. -/
def start (n : ℕ) : List Span → ℕ
  | [] => n
  | span :: _ => span.1

/-- How many new elements there are from the first span to the next place that stays; none if none stays. -/
def front (len : Span → ℕ) (n : ℕ) : List Span → Option ℕ
  | [] => none
  | span :: spans =>
    if span.2 < start n spans then some (len span)
    else (front len n spans).map fun f => len span + (f - (span.2 - start n spans))

/-- **There is room**: where a span ends behind the beginning of the next one, it is cut out of new elements. -/
def Room (len : Span → ℕ) (n : ℕ) : List Span → Prop
  | [] => True
  | span :: spans => Room len n spans ∧ ∀ f ∈ front len n spans, span.2 - start n spans ≤ f

variable {repl : Span → List β} {spans : List Span} {span : Span} {n : ℕ}

/-! ### Places -/

@[simp] theorem kept_append (s t : List (ℕ ⊕ β)) : kept (s ++ t) = kept s ++ kept t := List.filterMap_append

@[simp] theorem kept_inr (s : List β) : kept (s.map Sum.inr) = [] := by
  simp [kept, List.filterMap_map]

@[simp] theorem kept_inl (s : List ℕ) : kept (s.map (Sum.inl : ℕ → ℕ ⊕ β)) = s := by
  rw [kept, List.filterMap_map]
  exact List.filterMap_some

theorem mem_kept {t : List (ℕ ⊕ β)} {i : ℕ} : i ∈ kept t ↔ Sum.inl i ∈ t := by
  rw [kept, List.mem_filterMap]
  constructor
  · rintro ⟨x, hx, heq⟩
    rwa [← Sum.getLeft?_eq_some_iff.mp heq]
  · exact fun h => ⟨_, h, rfl⟩

theorem kept_sublist {s t : List (ℕ ⊕ β)} (h : s.Sublist t) : (kept s).Sublist (kept t) := h.filterMap _

theorem kept_cons_inl (i : ℕ) (t : List (ℕ ⊕ β)) : kept (Sum.inl i :: t) = i :: kept t := rfl

theorem woven_cons : woven repl (span :: spans) n =
    (woven repl spans n).take span.1 ++ (repl span).map Sum.inr ++ (woven repl spans n).drop span.2 := rfl

theorem InOrder.tail (h : InOrder (span :: spans) n) : InOrder spans n :=
  ⟨fun s hs => h.inside s (List.mem_cons_of_mem _ hs), (List.pairwise_cons.mp h.sorted).2⟩

theorem InOrder.le_start (h : InOrder (span :: spans) n) : span.1 ≤ start n spans := by
  have hspan := h.inside span List.mem_cons_self
  cases spans with
  | nil => exact hspan.1.trans hspan.2
  | cons next rest => exact ((List.pairwise_cons.mp h.sorted).1 next List.mem_cons_self).1

theorem take_of_take {t : List (ℕ ⊕ β)} {j k : ℕ} (hle : j ≤ k) (h : t.take k = (List.range k).map Sum.inl) :
    t.take j = (List.range j).map Sum.inl := by
  rw [← Nat.min_eq_left hle, ← List.take_take, h, ← List.map_take, List.take_range]

theorem take_woven (h : InOrder spans n) :
    (woven repl spans n).take (start n spans) = (List.range (start n spans)).map Sum.inl := by
  induction spans with
  | nil =>
    show ((List.range n).map Sum.inl).take n = _
    rw [List.take_of_length_le (by simp)]
    rfl
  | cons span spans ih =>
    have htake := take_of_take h.le_start (ih h.tail)
    have hlen : ((List.range span.1).map (Sum.inl : ℕ → ℕ ⊕ β)).length = span.1 := by simp
    rw [woven_cons, htake]
    show ((List.range span.1).map Sum.inl ++ _ ++ _).take span.1 = _
    rw [List.append_assoc, List.take_left' hlen]
    rfl

def rest (repl : Span → List β) (spans : List Span) (n : ℕ) : List (ℕ ⊕ β) :=
  (woven repl spans n).drop (start n spans)

theorem woven_eq (h : InOrder spans n) :
    woven repl spans n = (List.range (start n spans)).map Sum.inl ++ rest repl spans n := by
  rw [← take_woven h, rest, List.take_append_drop]

theorem rest_cons (h : InOrder (span :: spans) n) :
    rest repl (span :: spans) n = (repl span).map Sum.inr ++ (woven repl spans n).drop span.2 := by
  have htake : ((woven repl spans n).take span.1).length = span.1 := by
    have hlen := congrArg List.length (@take_woven β repl spans n h.tail)
    simp only [List.length_take, List.length_map, List.length_range] at hlen ⊢
    have := h.le_start
    omega
  show (woven repl (span :: spans) n).drop span.1 = _
  rw [woven_cons, List.append_assoc, List.drop_left' htake]

theorem drop_woven (h : InOrder spans n) (e : ℕ) : (woven repl spans n).drop e =
    ((List.range (start n spans)).drop e).map Sum.inl ++ (rest repl spans n).drop (e - start n spans) := by
  conv_lhs => rw [woven_eq h]
  rw [List.drop_append, List.map_drop, List.length_map, List.length_range]

/-! ### New elements in front -/

theorem rest_front (h : InOrder spans n) (hroom : Room (fun s => (repl s).length) n spans) :
    (front (fun s => (repl s).length) n spans = none ∧ kept (rest repl spans n) = []) ∨
      ∃ (news : List β) (i : ℕ) (t : List (ℕ ⊕ β)), front (fun s => (repl s).length) n spans = some news.length ∧
        rest repl spans n = news.map Sum.inr ++ Sum.inl i :: t := by
  induction spans with
  | nil =>
    left
    refine ⟨rfl, ?_⟩
    show kept (((List.range n).map Sum.inl).drop n) = []
    rw [List.drop_of_length_le (by simp)]
    rfl
  | cons span spans ih =>
    rw [rest_cons h, drop_woven h.tail, front]
    by_cases hlt : span.2 < start n spans
    · right
      obtain ⟨t, ht⟩ : ∃ t, (List.range (start n spans)).drop span.2 = span.2 :: t := by
        refine ⟨(List.range (start n spans)).drop (span.2 + 1), ?_⟩
        rw [List.drop_eq_getElem_cons (by simpa using hlt), List.getElem_range]
      refine ⟨repl span, span.2, t.map Sum.inl ++ (rest repl spans n).drop (span.2 - start n spans), if_pos hlt, ?_⟩
      rw [ht, List.map_cons, List.cons_append]
    · rw [if_neg hlt, List.drop_of_length_le (by simpa using hlt), List.map_nil, List.nil_append]
      rcases ih h.tail hroom.1 with ⟨hnone, hkept⟩ | ⟨news, i, t, hsome, hrest⟩
      · left
        refine ⟨by rw [hnone]; rfl, ?_⟩
        have hdrop := kept_sublist (List.drop_sublist (span.2 - start n spans) (rest repl spans n))
        rw [hkept, List.sublist_nil] at hdrop
        rw [kept_append, kept_inr, hdrop, List.append_nil]
      · right
        have hle := hroom.2 _ hsome
        refine ⟨repl span ++ news.drop (span.2 - start n spans), i, t, ?_, ?_⟩
        · rw [hsome, Option.map_some, List.length_append, List.length_drop]
        · rw [hrest, List.drop_append_of_le_length (by simpa using hle), List.map_append, List.append_assoc,
            List.map_drop]

/-! ### What stays -/

theorem kept_woven_cons : kept (woven repl (span :: spans) n) =
    kept ((woven repl spans n).take span.1) ++ kept ((woven repl spans n).drop span.2) := by
  rw [woven_cons, kept_append, kept_append, kept_inr, List.append_nil]

theorem kept_woven_cons_sublist (h : InOrder (span :: spans) n) :
    (kept (woven repl (span :: spans) n)).Sublist (kept (woven repl spans n)) := by
  have hspan := (h.inside span List.mem_cons_self).1
  rw [kept_woven_cons, ← kept_append]
  refine kept_sublist ?_
  conv_rhs => rw [← List.take_append_drop span.1 (woven repl spans n)]
  refine (List.Sublist.refl _).append ?_
  rw [← Nat.add_sub_of_le hspan, ← List.drop_drop]
  exact List.drop_sublist _ _

theorem kept_woven_sublist (h : InOrder spans n) : (kept (woven repl spans n)).Sublist (List.range n) := by
  induction spans with
  | nil =>
    show (kept ((List.range n).map Sum.inl)).Sublist _
    rw [kept_inl]
  | cons span spans ih => exact (kept_woven_cons_sublist h).trans (ih h.tail)

theorem pairwise_kept_woven (h : InOrder spans n) : (kept (woven repl spans n)).Pairwise (· < ·) :=
  List.pairwise_lt_range.sublist (kept_woven_sublist h)

theorem kept_woven_eq (h : InOrder spans n) :
    kept (woven repl spans n) = List.range (start n spans) ++ kept (rest repl spans n) := by
  rw [woven_eq h, kept_append, kept_inl]

theorem start_le_of_mem_rest (h : InOrder spans n) {i : ℕ} (hi : i ∈ kept (rest repl spans n)) : start n spans ≤ i := by
  have hsorted : (kept (woven repl spans n)).Pairwise (· < ·) := pairwise_kept_woven h
  rw [kept_woven_eq h, List.pairwise_append] at hsorted
  by_contra hlt
  have := hsorted.2.2 i (List.mem_range.mpr (by omega)) i hi
  omega

theorem end_le_of_mem_rest (h : InOrder (span :: spans) n) {i : ℕ} (hi : i ∈ kept (rest repl spans n))
    (hout : ∀ s ∈ spans, i < s.1 ∨ s.2 ≤ i) : span.2 ≤ i := by
  have hstart := start_le_of_mem_rest h.tail hi
  cases spans with
  | nil =>
    have := (h.inside span List.mem_cons_self).2
    exact this.trans hstart
  | cons next spans =>
    have hnext := ((List.pairwise_cons.mp h.sorted).1 next List.mem_cons_self).2
    have hstart : next.1 ≤ i := hstart
    have := hout next List.mem_cons_self
    omega

theorem outside_of_mem_kept (h : InOrder spans n) {i : ℕ} (hi : i ∈ kept (woven repl spans n)) :
    ∀ span ∈ spans, i < span.1 ∨ span.2 ≤ i := by
  induction spans generalizing i with
  | nil => simp
  | cons span spans ih =>
    have hout := ih h.tail ((kept_woven_cons_sublist h).subset hi)
    refine List.forall_mem_cons.mpr ⟨?_, hout⟩
    rw [kept_woven_cons, drop_woven h.tail, kept_append, kept_inl, List.mem_append, List.mem_append] at hi
    rcases hi with hi | hi | hi
    · left
      rw [take_of_take h.le_start (take_woven h.tail), kept_inl] at hi
      exact List.mem_range.mp hi
    · right
      rw [List.range_eq_range', List.drop_range', List.mem_range'_1] at hi
      omega
    · exact Or.inr (end_le_of_mem_rest h ((kept_sublist (List.drop_sublist _ _)).subset hi) hout)

theorem kept_drop_rest (h : InOrder spans n) (hroom : Room (fun s => (repl s).length) n (span :: spans)) :
    kept ((rest repl spans n).drop (span.2 - start n spans)) = kept (rest repl spans n) := by
  rcases rest_front h hroom.1 with ⟨-, hkept⟩ | ⟨news, j, t, hsome, hrest⟩
  · have hdrop := kept_sublist (List.drop_sublist (span.2 - start n spans) (rest repl spans n))
    rw [hkept, List.sublist_nil] at hdrop
    rw [hdrop, hkept]
  · have hle := hroom.2 _ hsome
    rw [hrest, List.drop_append_of_le_length (by simpa using hle), kept_append, kept_append, ← List.map_drop, kept_inr,
      kept_inr]

/-- **With room**, all that is outside stays. -/
theorem mem_kept_of_room (h : InOrder spans n) (hroom : Room (fun s => (repl s).length) n spans) {i : ℕ} (hi : i < n)
    (hout : ∀ span ∈ spans, i < span.1 ∨ span.2 ≤ i) : i ∈ kept (woven repl spans n) := by
  induction spans with
  | nil =>
    show i ∈ kept ((List.range n).map Sum.inl)
    rw [kept_inl]
    exact List.mem_range.mpr hi
  | cons span spans ih =>
    obtain ⟨hspan, hout⟩ := List.forall_mem_cons.mp hout
    have hmem := ih h.tail hroom.1 hout
    rw [kept_woven_cons, take_of_take h.le_start (take_woven h.tail), drop_woven h.tail, kept_append, kept_inl, kept_inl,
      kept_drop_rest h.tail hroom, List.mem_append, List.mem_append]
    rcases hspan with hlt | hle
    · exact Or.inl (List.mem_range.mpr hlt)
    · rw [kept_woven_eq h.tail, List.mem_append, List.mem_range] at hmem
      refine Or.inr (hmem.imp_left fun hlt => ?_)
      rw [List.range_eq_range', List.drop_range', List.mem_range'_1]
      omega

/-- **Without room**, something that is outside is lost. -/
theorem exists_lost (h : InOrder spans n) (hroom : ¬ Room (fun s => (repl s).length) n spans) :
    ∃ i < n, (∀ span ∈ spans, i < span.1 ∨ span.2 ≤ i) ∧ i ∉ kept (woven repl spans n) := by
  induction spans with
  | nil => exact absurd trivial hroom
  | cons span spans ih =>
    by_cases hrest : Room (fun s => (repl s).length) n spans
    · have hcut : ∃ f ∈ front (fun s => (repl s).length) n spans, f < span.2 - start n spans := by
        by_contra hnone
        exact hroom ⟨hrest, fun f hf => Nat.le_of_not_lt fun hlt => hnone ⟨f, hf, hlt⟩⟩
      obtain ⟨f, hf, hlt⟩ := hcut
      rcases rest_front h.tail hrest with ⟨hnone, -⟩ | ⟨news, j, t, hsome, heq⟩
      · rw [hnone] at hf
        cases hf
      obtain rfl := Option.some.inj (hsome.symm.trans hf)
      have hkept : kept (rest repl spans n) = j :: kept t := by
        rw [heq, kept_append, kept_inr, List.nil_append, kept_cons_inl]
      have hj : j ∈ kept (rest repl spans n) := by
        rw [hkept]
        exact List.mem_cons_self
      have hmem : j ∈ kept (woven repl spans n) := by
        rw [kept_woven_eq h.tail]
        exact List.mem_append_right _ hj
      have hout := outside_of_mem_kept h.tail hmem
      have hend := end_le_of_mem_rest h hj hout
      refine ⟨j, List.mem_range.mp ((kept_woven_sublist h.tail).subset hmem),
        List.forall_mem_cons.mpr ⟨Or.inr hend, hout⟩, fun hstays => ?_⟩
      have hspan := (h.inside span List.mem_cons_self).1
      have hstart := start_le_of_mem_rest h.tail hj
      have hsorted : (kept (woven repl spans n)).Pairwise (· < ·) := pairwise_kept_woven h.tail
      rw [kept_woven_eq h.tail, hkept, List.pairwise_append] at hsorted
      rw [kept_woven_cons, take_of_take h.le_start (take_woven h.tail), drop_woven h.tail, kept_append, kept_inl,
        kept_inl, List.mem_append, List.mem_append] at hstays
      rcases hstays with hi | hi | hi
      · rw [List.mem_range] at hi
        have := h.le_start
        omega
      · have := List.mem_range.mp (List.mem_of_mem_drop hi)
        omega
      · -- the cut reaches behind the place
        obtain ⟨m, hm⟩ : ∃ m, span.2 - start n spans = (news.map (Sum.inr : β → ℕ ⊕ β)).length + (m + 1) := by
          refine ⟨span.2 - start n spans - news.length - 1, ?_⟩
          rw [List.length_map]
          omega
        rw [heq, hm, List.drop_length_add_append, List.drop_succ_cons] at hi
        have hmem := (kept_sublist (List.drop_sublist m t)).subset hi
        exact absurd ((List.pairwise_cons.mp hsorted.2.1).1 j hmem) (Nat.lt_irrefl j)
    · obtain ⟨i, hi, hout, hlost⟩ := ih h.tail hrest
      refine ⟨i, hi, List.forall_mem_cons.mpr ⟨Or.inr ?_, hout⟩, fun hmem =>
        hlost ((kept_woven_cons_sublist h).subset hmem)⟩
      have hstart : start n spans ≤ i := by
        by_contra hlt
        refine hlost ?_
        rw [kept_woven_eq h.tail]
        exact List.mem_append_left _ (List.mem_range.mpr (by omega))
      cases spans with
      | nil => exact absurd hstart (Nat.not_le.mpr hi)
      | cons next spans =>
        have hnext := ((List.pairwise_cons.mp h.sorted).1 next List.mem_cons_self).2
        have hstart : next.1 ≤ i := hstart
        have := hout next List.mem_cons_self
        omega

/-- **All that is outside of the spans stays** if and only if there is room. -/
theorem kept_woven_iff (h : InOrder spans n) :
    kept (woven repl spans n) = outside spans n ↔ Room (fun s => (repl s).length) n spans := by
  have hmem : ∀ i, i ∈ outside spans n ↔ i < n ∧ ∀ span ∈ spans, i < span.1 ∨ span.2 ≤ i := by
    intro i
    rw [outside, List.mem_filter, List.mem_range, decide_eq_true_eq]
  constructor
  · intro heq
    by_contra hroom
    obtain ⟨i, hi, hout, hlost⟩ := exists_lost h hroom
    rw [heq] at hlost
    exact hlost ((hmem i).mpr ⟨hi, hout⟩)
  · intro hroom
    refine List.Pairwise.eq_of_mem_iff (pairwise_kept_woven h) (List.pairwise_lt_range.sublist List.filter_sublist) ?_
    intro i
    rw [hmem]
    exact ⟨fun hi => ⟨List.mem_range.mp ((kept_woven_sublist h).subset hi), outside_of_mem_kept h hi⟩,
      fun hi => mem_kept_of_room h hroom hi.1 hi.2⟩

end Smara.Lib.Splices
