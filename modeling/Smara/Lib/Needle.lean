import Mathlib.Data.List.Infix

/-! # Occurrences of a needle in a list, and their replacement

`positions old l` are the places where `old` occurs in `l`, one that begins within another one included.
`replaceFrom` goes from the left and takes the occurrences that begin behind the last one replaced.
`splice` writes over the places given, the last one first.

* `splice_positions`: without occurrences that overlap, the two agree.
* `splice_positions_single`: so does the replacement of the first occurrence, if there is no other.
* `length_replaceFrom_lt`: a longer replacement gives a longer list. -/

namespace Smara.Lib.Needle

variable {α : Type*} [DecidableEq α]

/-- The places where `old` occurs. -/
def positions (old : List α) : List α → List ℕ
  | [] => if old = [] then [0] else []
  | c :: cs => (if old <+: c :: cs then [0] else []) ++ (positions old cs).map (· + 1)

/-- `l` with `new` for the occurrences of `old` from the left: no more than `left` of them, if that is given,
and the first `skip` entries passed over. -/
def replaceFrom (old new : List α) : Option ℕ → ℕ → List α → List α
  | _, _, [] => []
  | left, skip + 1, _ :: cs => replaceFrom old new left skip cs
  | left, 0, c :: cs =>
    if left ≠ some 0 ∧ old <+: c :: cs then
      new ++ replaceFrom old new (left.map (· - 1)) (old.length - 1) cs
    else c :: replaceFrom old new left 0 cs

/-- `l` with `new` over the `n` entries at each place, the last place first. -/
def splice (n : ℕ) (new l : List α) (places : List ℕ) : List α :=
  places.foldr (fun p updated => updated.take p ++ new ++ updated.drop (p + n)) l

def NoOverlap (old l : List α) : Prop :=
  ∀ p ∈ positions old l, ∀ q ∈ positions old l, p < q → p + old.length ≤ q

variable {old new new' : List α} {l : List α}

theorem positions_nil : positions old [] = if old = [] then [0] else [] := rfl

theorem positions_cons (c : α) (cs : List α) : positions old (c :: cs) =
    (if old <+: c :: cs then [0] else []) ++ (positions old cs).map (· + 1) := rfl

@[simp] theorem replaceFrom_nil (left : Option ℕ) (skip : ℕ) : replaceFrom old new left skip [] = [] := by
  cases skip <;> rfl

theorem replaceFrom_succ (left : Option ℕ) (skip : ℕ) (c : α) (cs : List α) :
    replaceFrom old new left (skip + 1) (c :: cs) = replaceFrom old new left skip cs := rfl

theorem replaceFrom_cons (left : Option ℕ) (c : α) (cs : List α) : replaceFrom old new left 0 (c :: cs) =
    if left ≠ some 0 ∧ old <+: c :: cs then
      new ++ replaceFrom old new (left.map (· - 1)) (old.length - 1) cs
    else c :: replaceFrom old new left 0 cs := rfl

theorem mem_positions {p : ℕ} : p ∈ positions old l ↔ p ≤ l.length ∧ old <+: l.drop p := by
  induction l generalizing p with
  | nil =>
    by_cases h : old = []
    · simp [positions_nil, h]
    · simp [positions_nil, h]
  | cons c cs ih =>
    cases p with
    | zero => by_cases h : old <+: c :: cs <;> simp [positions_cons, h]
    | succ p => by_cases h : old <+: c :: cs <;> simp [positions_cons, h, ih]

theorem positions_pairwise : (positions old l).Pairwise (· < ·) := by
  induction l with
  | nil =>
    rw [positions_nil]
    split_ifs <;> simp
  | cons c cs ih =>
    have htail : ((positions old cs).map (· + 1)).Pairwise (· < ·) := by
      rw [List.pairwise_map]
      exact ih.imp fun h => by omega
    rw [positions_cons]
    split_ifs
    · exact List.pairwise_cons.mpr ⟨by simp, htail⟩
    · exact htail

theorem occurs_iff : (∃ p, p ∈ positions old l) ↔ old <:+: l := by
  constructor
  · rintro ⟨p, hp⟩
    exact (mem_positions.mp hp).2.isInfix.trans (List.drop_suffix p l).isInfix
  · rintro ⟨before, after, rfl⟩
    refine ⟨before.length, mem_positions.mpr ⟨by simp, ?_⟩⟩
    rw [List.append_assoc, List.drop_left]
    exact List.prefix_append old after

theorem noOverlap_tail {c : α} {cs : List α} (h : NoOverlap old (c :: cs)) : NoOverlap old cs := by
  have hshift : ∀ p ∈ positions old cs, p + 1 ∈ positions old (c :: cs) := by
    intro p hp
    have := mem_positions.mp hp
    exact mem_positions.mpr (by simpa using this)
  intro p hp q hq hlt
  have := h (p + 1) (hshift p hp) (q + 1) (hshift q hq) (by omega)
  omega

theorem noOverlap_drop (h : NoOverlap old l) (j : ℕ) : NoOverlap old (l.drop j) := by
  induction j generalizing l with
  | zero => exact h
  | succ j ih =>
    cases l with
    | nil => exact h
    | cons c cs => exact ih (noOverlap_tail h)

/-! ## The two replacements -/

omit [DecidableEq α] in
theorem splice_shift (n : ℕ) (c : α) (places : List ℕ) :
    splice n new (c :: l) (places.map (· + 1)) = c :: splice n new l places := by
  induction places with
  | nil => rfl
  | cons p places ih =>
    have hdrop : p + 1 + n = p + n + 1 := by omega
    rw [List.map_cons]
    show (splice n new (c :: l) (places.map (· + 1))).take (p + 1) ++ new ++
      (splice n new (c :: l) (places.map (· + 1))).drop (p + 1 + n) = _
    rw [ih, hdrop]
    rfl

theorem splice_cons (hold : old ≠ []) (c : α) (cs : List α) :
    splice old.length new (c :: cs) (positions old (c :: cs)) =
      if old <+: c :: cs then new ++ (splice old.length new cs (positions old cs)).drop (old.length - 1)
      else c :: splice old.length new cs (positions old cs) := by
  rw [positions_cons]
  split_ifs with h
  · obtain ⟨m, hm⟩ := Nat.exists_eq_succ_of_ne_zero (List.length_pos_iff.mpr hold).ne'
    show (splice old.length new (c :: cs) ((positions old cs).map (· + 1))).take 0 ++ new ++
      (splice old.length new (c :: cs) ((positions old cs).map (· + 1))).drop (0 + old.length) = _
    rw [splice_shift, hm]
    simp
  · exact splice_shift _ c _

theorem splice_drop (hold : old ≠ []) {j : ℕ} (h : ∀ p ∈ positions old l, j ≤ p) :
    (splice old.length new l (positions old l)).drop j =
      splice old.length new (l.drop j) (positions old (l.drop j)) := by
  induction j generalizing l with
  | zero => rfl
  | succ j ih =>
    cases l with
    | nil => simp [positions_nil, hold, splice]
    | cons c cs =>
      have hno : ¬ old <+: c :: cs := by
        intro hprefix
        have := h 0 (mem_positions.mpr ⟨by simp, hprefix⟩)
        omega
      rw [splice_cons hold, if_neg hno]
      refine ih fun p hp => ?_
      have hp' := mem_positions.mp hp
      have := h (p + 1) (mem_positions.mpr (by simpa using hp'))
      omega

theorem replaceFrom_skip (left : Option ℕ) (skip : ℕ) :
    replaceFrom old new left skip l = replaceFrom old new left 0 (l.drop skip) := by
  induction skip generalizing l with
  | zero => rfl
  | succ skip ih =>
    cases l with
    | nil => simp
    | cons c cs => simpa only [replaceFrom_succ, List.drop_succ_cons] using ih

theorem replaceFrom_done : replaceFrom old new (some 0) 0 l = l := by
  induction l with
  | nil => rfl
  | cons c cs ih => simp [replaceFrom_cons, ih]

/-- **Without overlaps** the splice is the replacement from the left. -/
theorem splice_positions (hold : old ≠ []) (h : NoOverlap old l) :
    splice old.length new l (positions old l) = replaceFrom old new none 0 l := by
  induction hn : l.length using Nat.strong_induction_on generalizing l with
  | _ n ih =>
    cases l with
    | nil => simp [positions_nil, hold, splice]
    | cons c cs =>
      subst hn
      have htail := noOverlap_tail h
      rw [splice_cons hold, replaceFrom_cons]
      by_cases hprefix : old <+: c :: cs
      · have hfirst : ∀ p ∈ positions old cs, old.length - 1 ≤ p := by
          intro p hp
          have hp' := mem_positions.mp hp
          have := h 0 (mem_positions.mpr ⟨by simp, hprefix⟩) (p + 1)
            (mem_positions.mpr (by simpa using hp')) (by omega)
          omega
        rw [if_pos hprefix, if_pos ⟨by simp, hprefix⟩, splice_drop hold hfirst, replaceFrom_skip]
        exact congrArg (new ++ ·) (ih _ (by rw [List.length_drop, List.length_cons]; omega) (noOverlap_drop htail _) rfl)
      · rw [if_neg hprefix, if_neg fun hand => hprefix hand.2]
        exact congrArg (c :: ·) (ih _ (by simp) htail rfl)

/-- **With one occurrence** the splice is the replacement of the first. -/
theorem splice_positions_single (hold : old ≠ []) (h : (positions old l).length ≤ 1) :
    splice old.length new l (positions old l) = replaceFrom old new (some 1) 0 l := by
  induction l with
  | nil => simp [positions_nil, hold, splice]
  | cons c cs ih =>
    rw [splice_cons hold, replaceFrom_cons]
    by_cases hprefix : old <+: c :: cs
    · rw [positions_cons, if_pos hprefix] at h
      have hnone : positions old cs = [] := by
        rw [← List.length_eq_zero_iff]
        simp at h
        simp [h]
      rw [if_pos hprefix, if_pos ⟨by simp, hprefix⟩, hnone, replaceFrom_skip]
      exact congrArg (new ++ ·) replaceFrom_done.symm
    · rw [positions_cons, if_neg hprefix] at h
      rw [if_neg hprefix, if_neg fun hand => hprefix hand.2]
      exact congrArg (c :: ·) (ih (by simpa using h))

theorem length_replaceFrom_le (h : new.length ≤ new'.length) (left : Option ℕ) (skip : ℕ) :
    (replaceFrom old new left skip l).length ≤ (replaceFrom old new' left skip l).length := by
  induction l generalizing left skip with
  | nil => simp
  | cons c cs ih =>
    cases skip with
    | succ skip => exact ih left skip
    | zero =>
      rw [replaceFrom_cons, replaceFrom_cons]
      split_ifs
      · have := ih (left.map (· - 1)) (old.length - 1)
        simp only [List.length_append]
        omega
      · simpa using ih left 0

theorem length_replaceFrom_lt (h : new.length < new'.length) {left : Option ℕ} (hleft : left ≠ some 0)
    (hold : old ≠ []) (hoccurs : ∃ p, p ∈ positions old l) :
    (replaceFrom old new left 0 l).length < (replaceFrom old new' left 0 l).length := by
  induction l with
  | nil => simp [positions_nil, hold] at hoccurs
  | cons c cs ih =>
    rw [replaceFrom_cons, replaceFrom_cons]
    by_cases hprefix : old <+: c :: cs
    · have hrest : (replaceFrom old new (left.map (· - 1)) (old.length - 1) cs).length ≤
          (replaceFrom old new' (left.map (· - 1)) (old.length - 1) cs).length := length_replaceFrom_le h.le _ _
      rw [if_pos ⟨hleft, hprefix⟩, if_pos ⟨hleft, hprefix⟩]
      simp only [List.length_append]
      omega
    · rw [if_neg fun hand => hprefix hand.2, if_neg fun hand => hprefix hand.2]
      obtain ⟨p, hp⟩ := hoccurs
      rw [positions_cons, if_neg hprefix] at hp
      obtain ⟨q, hq, -⟩ := List.mem_map.mp hp
      simpa using ih ⟨q, hq⟩

end Smara.Lib.Needle
