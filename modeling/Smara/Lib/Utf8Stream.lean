import Smara.Lib.Utf8

/-! # UTF-8 in pieces

An incremental decoder is given the bytes piece by piece. It decodes the units that no later byte can change, and holds
the others.

* `boundary_take`, `boundary_settled_append`: what is settled stays so.
* `settled_append`: pieces are decoded as the whole is. -/

namespace Smara.Lib.Utf8

/-- The unit that begins with `b` has no end yet. -/
def Unfinished (b : UInt8) (bs : List UInt8) : Prop :=
  matched (follow b) bs = bs.length ∧ bs.length < (follow b).length

instance (b : UInt8) (bs : List UInt8) : Decidable (Unfinished b bs) := inferInstanceAs (Decidable (_ ∧ _))

/-- How many bytes belong to finished units, with the first `skip` bytes passed over. -/
def settledFrom : ℕ → List UInt8 → ℕ
  | _, [] => 0
  | skip + 1, _ :: bs => settledFrom skip bs + 1
  | 0, b :: bs => if Unfinished b bs then 0 else settledFrom (matched (follow b) bs) bs + 1

/-- How many bytes belong to finished units. -/
def settled (bs : List UInt8) : ℕ := settledFrom 0 bs

/-- The characters of the finished units. -/
def decoded (bs : List UInt8) : List Char := decode (bs.take (settled bs))

/-- The bytes behind them. -/
def held (bs : List UInt8) : List UInt8 := bs.drop (settled bs)

/-- **`decode` of the incremental decoder** that holds some bytes: what it returns, and what it holds afterwards. -/
def feed (buffer input : List UInt8) (final : Bool) : List Char × List UInt8 :=
  if final then (decode (buffer ++ input), []) else (decoded (buffer ++ input), held (buffer ++ input))

variable {P : List UInt8 → Prop} {b : UInt8} {bs xs ys : List UInt8} {j k n : ℕ}

/-! ## Boundaries -/

theorem units_induction (nil : P []) (unit : ∀ b bs, P (bs.drop (matched (follow b) bs)) → P (b :: bs))
    (bs : List UInt8) : P bs := by
  induction hn : bs.length using Nat.strongRecOn generalizing bs with
  | _ n ih =>
    cases bs with
    | nil => exact nil
    | cons b bs =>
      rw [List.length_cons] at hn
      exact unit b bs (ih _ (by rw [List.length_drop]; omega) _ rfl)

theorem boundary_length (bs : List UInt8) : Boundary bs bs.length := by
  induction bs using units_induction with
  | nil => exact .zero
  | unit b bs ih =>
    have hle := matched_le (follow b) bs
    rw [List.length_drop] at ih
    rw [show (b :: bs).length = matched (follow b) bs + 1 + (bs.length - matched (follow b) bs) by
      rw [List.length_cons]; omega]
    exact .unit ih

/-- A boundary stays one when bytes behind it are cut off. -/
theorem boundary_take (h : Boundary bs k) (hk : k ≤ n) : Boundary (bs.take n) k := by
  induction h generalizing n with
  | zero => exact .zero
  | @unit b bs k h ih =>
    obtain ⟨n, rfl⟩ : ∃ n', n = n' + 1 := ⟨n - 1, by omega⟩
    have hmatched : matched (follow b) (bs.take n) = matched (follow b) bs := by
      rw [matched_take]
      omega
    have hrest := ih (n := n - matched (follow b) bs) (by omega)
    rw [← List.drop_take, ← hmatched] at hrest
    rw [List.take_succ_cons, ← hmatched]
    exact .unit hrest

/-- What is behind a boundary is decoded apart. -/
theorem decode_take_add (h : Boundary bs k) (hk : k ≤ bs.length) :
    decode (bs.take (k + j)) = decode (bs.take k) ++ decode ((bs.drop k).take j) := by
  have hcut := boundary_take h (Nat.le_add_right k j)
  have hlength : (bs.take k).length = k := by
    rw [List.length_take]
    omega
  rw [List.take_add] at hcut ⊢
  exact decode_append (by rwa [hlength])

/-! ## Finished units -/

theorem settledFrom_eq (skip : ℕ) (h : skip ≤ bs.length) : settledFrom skip bs = skip + settled (bs.drop skip) := by
  induction skip generalizing bs with
  | zero => rw [Nat.zero_add]; rfl
  | succ skip ih =>
    cases bs with
    | nil => exact absurd h (Nat.not_succ_le_zero _)
    | cons b bs =>
      rw [settledFrom, ih (Nat.le_of_succ_le_succ h), List.drop_succ_cons]
      omega

theorem settled_cons (b : UInt8) (bs : List UInt8) : settled (b :: bs) =
    if Unfinished b bs then 0 else matched (follow b) bs + 1 + settled (bs.drop (matched (follow b) bs)) := by
  rw [settled, settledFrom, settledFrom_eq _ (matched_le _ _)]
  split_ifs
  · rfl
  · omega

theorem settled_le (bs : List UInt8) : settled bs ≤ bs.length := by
  induction bs using units_induction with
  | nil => exact Nat.le_refl 0
  | unit b bs ih =>
    have hle := matched_le (follow b) bs
    rw [List.length_drop] at ih
    rw [settled_cons, List.length_cons]
    split_ifs
    · omega
    · omega

theorem matched_le_ranges (ranges : List (ℕ × ℕ)) (bs : List UInt8) : matched ranges bs ≤ ranges.length := by
  induction ranges generalizing bs with
  | nil => simp [matched]
  | cons range ranges ih =>
    cases bs with
    | nil => simp [matched]
    | cons b bs =>
      have := ih bs
      simp only [matched, List.length_cons]
      split_ifs
      · omega
      · omega

/-- **A finished unit** stays what it is when bytes are appended. -/
theorem matched_of_finished (h : ¬ Unfinished b xs) (ys : List UInt8) :
    matched (follow b) (xs ++ ys) = matched (follow b) xs ∧ ¬ Unfinished b (xs ++ ys) := by
  have hcut := matched_take (follow b) (xs ++ ys) xs.length
  rw [List.take_left] at hcut
  have hranges := matched_le_ranges (follow b) (xs ++ ys)
  unfold Unfinished at h ⊢
  rw [List.length_append]
  omega

/-- What is settled stays so when bytes are appended. -/
theorem boundary_settled (xs ys : List UInt8) : Boundary (xs ++ ys) (settled xs) := by
  induction xs using units_induction with
  | nil => exact .zero
  | unit b xs ih =>
    rw [settled_cons]
    split_ifs with hopen
    · exact .zero
    · have hmatched := (matched_of_finished hopen ys).1
      rw [← List.drop_append_of_le_length (matched_le _ _), ← hmatched] at ih
      rw [← hmatched]
      exact .unit ih

/-- A boundary before the end stays one when bytes are appended. -/
theorem boundary_append (h : Boundary xs k) (hk : k < xs.length) (ys : List UInt8) : Boundary (xs ++ ys) k := by
  induction h with
  | zero => exact .zero
  | @unit b bs k h ih =>
    rw [List.length_cons] at hk
    have hmatched := (matched_of_finished (fun hopen => by have := hopen.1; omega) ys : matched (follow b) (bs ++ ys) =
      matched (follow b) bs ∧ _).1
    have hrest := ih (by rw [List.length_drop]; omega)
    rw [← List.drop_append_of_le_length (matched_le _ _), ← hmatched] at hrest
    rw [← hmatched]
    exact .unit hrest

theorem held_of_unfinished (h : Unfinished b bs) : held (b :: bs) = b :: bs := by
  unfold held
  rw [settled_cons, if_pos h, List.drop_zero]

theorem held_of_finished (h : ¬ Unfinished b bs) : held (b :: bs) = held (bs.drop (matched (follow b) bs)) := by
  unfold held
  rw [settled_cons, if_neg h, List.drop_drop, show matched (follow b) bs + 1 + settled (bs.drop (matched (follow b) bs)) =
    matched (follow b) bs + settled (bs.drop (matched (follow b) bs)) + 1 by omega, List.drop_succ_cons]

theorem settled_append (xs ys : List UInt8) : settled (xs ++ ys) = settled xs + settled (held xs ++ ys) := by
  induction xs using units_induction with
  | nil => exact (Nat.zero_add _).symm
  | unit b xs ih =>
    rw [settled_cons b xs]
    by_cases hopen : Unfinished b xs
    · rw [if_pos hopen, held_of_unfinished hopen, Nat.zero_add]
    · obtain ⟨hmatched, hfinished⟩ := matched_of_finished hopen ys
      rw [if_neg hopen, held_of_finished hopen, List.cons_append, settled_cons, if_neg hfinished, hmatched,
        List.drop_append_of_le_length (matched_le _ _), ih]
      omega

theorem drop_settled_append (xs ys : List UInt8) : (xs ++ ys).drop (settled xs) = held xs ++ ys :=
  List.drop_append_of_le_length (settled_le xs)

/-- **The decoder may be given the bytes in pieces.** -/
theorem decoded_append (xs ys : List UInt8) : decoded (xs ++ ys) = decoded xs ++ decoded (held xs ++ ys) := by
  have hle : settled xs ≤ (xs ++ ys).length := by
    have := settled_le xs
    rw [List.length_append]
    omega
  unfold decoded
  rw [settled_append, decode_take_add (boundary_settled xs ys) hle, drop_settled_append,
    List.take_append_of_le_length (settled_le xs)]

theorem held_append (xs ys : List UInt8) : held (xs ++ ys) = held (held xs ++ ys) := by
  show (xs ++ ys).drop (settled (xs ++ ys)) = _
  rw [settled_append, ← List.drop_drop, drop_settled_append]
  rfl

/-- What is held is one unit. -/
theorem length_decode_held (bs : List UInt8) : (decode (held bs)).length ≤ 1 := by
  induction bs using units_induction with
  | nil => exact Nat.zero_le 1
  | unit b bs ih =>
    by_cases hopen : Unfinished b bs
    · rw [held_of_unfinished hopen, decode_cons, hopen.1, List.drop_length]
      exact Nat.le_refl 1
    · rwa [held_of_finished hopen]

theorem length_held (bs : List UInt8) : settled bs + (held bs).length = bs.length := by
  have := settled_le bs
  unfold held
  rw [List.length_drop]
  omega

theorem decode_decoded (bs : List UInt8) : decode bs = decoded bs ++ decode (held bs) := by
  have hcut := decode_take_add (j := (held bs).length) (boundary_settled bs []) (by simpa using settled_le bs)
  rw [List.append_nil] at hcut
  rw [length_held, List.take_length] at hcut
  rw [hcut]
  unfold held
  rw [List.take_length]
  rfl

end Smara.Lib.Utf8
