import Mathlib

/-! # UTF-8 with replacement

The decoder that reads a byte sequence in units: a well formed character, or the longest beginning of one that
is there, or a single byte that begins none; all but the first are read as U+FFFD. `Boundary bs k` says that
`k` bytes are whole units of `bs`.

* `decode_append`: what is cut between units is decoded apart.
* `length_decode_append_lt`: what is cut inside a unit has more characters when it is decoded apart. -/

namespace Smara.Lib.Utf8

def tail : ℕ × ℕ := (0x80, 0xBF)

/-- The ranges of the bytes behind the first one of a character; none behind a byte that is a character, or
that begins none. -/
def follow (b : UInt8) : List (ℕ × ℕ) :=
  let n := b.toNat
  if 0xC2 ≤ n ∧ n ≤ 0xDF then [tail]
  else if n = 0xE0 then [(0xA0, 0xBF), tail]
  else if n = 0xED then [(0x80, 0x9F), tail]
  else if 0xE1 ≤ n ∧ n ≤ 0xEF then [tail, tail]
  else if n = 0xF0 then [(0x90, 0xBF), tail, tail]
  else if n = 0xF4 then [(0x80, 0x8F), tail, tail]
  else if 0xF1 ≤ n ∧ n ≤ 0xF3 then [tail, tail, tail]
  else []

/-- How many bytes are in their ranges. -/
def matched : List (ℕ × ℕ) → List UInt8 → ℕ
  | (lo, hi) :: ranges, b :: bs => if lo ≤ b.toNat ∧ b.toNat ≤ hi then matched ranges bs + 1 else 0
  | _, _ => 0

/-- The bits that the first byte of a character with `n` more bytes has. -/
def leadBits (b : UInt8) (n : ℕ) : ℕ := b.toNat % 2 ^ (6 - n)

/-- The character of the unit that begins with `b`. -/
def unitChar (b : UInt8) (bs : List UInt8) : Char :=
  let n := (follow b).length
  if b.toNat < 0x80 then Char.ofNat b.toNat
  else if n ≠ 0 ∧ matched (follow b) bs = n then
    Char.ofNat ((bs.take n).foldl (fun code c => code * 64 + c.toNat % 64) (leadBits b n))
  else '\uFFFD'

/-- The decoder, with the first `skip` bytes passed over. -/
def decodeFrom : ℕ → List UInt8 → List Char
  | _, [] => []
  | skip + 1, _ :: bs => decodeFrom skip bs
  | 0, b :: bs => unitChar b bs :: decodeFrom (matched (follow b) bs) bs

/-- `bytes.decode(errors="replace")` -/
def decode (bs : List UInt8) : List Char := decodeFrom 0 bs

/-- `k` bytes are whole units. -/
inductive Boundary : List UInt8 → ℕ → Prop
  | zero {bs} : Boundary bs 0
  | unit {b bs k} (h : Boundary (bs.drop (matched (follow b) bs)) k) :
    Boundary (b :: bs) (matched (follow b) bs + 1 + k)

variable {b : UInt8} {bs xs ys : List UInt8} {ranges : List (ℕ × ℕ)} {j k : ℕ}

/-! ## Units -/

theorem matched_le (ranges : List (ℕ × ℕ)) (bs : List UInt8) : matched ranges bs ≤ bs.length := by
  induction ranges generalizing bs with
  | nil => simp [matched]
  | cons range ranges ih =>
    cases bs with
    | nil => simp [matched]
    | cons b bs =>
      have := ih bs
      simp only [matched, List.length_cons]
      split_ifs <;> omega

theorem matched_take (ranges : List (ℕ × ℕ)) (bs : List UInt8) (k : ℕ) :
    matched ranges (bs.take k) = min k (matched ranges bs) := by
  induction ranges generalizing bs k with
  | nil => simp [matched]
  | cons range ranges ih =>
    cases bs with
    | nil => simp [matched]
    | cons b bs =>
      cases k with
      | zero => simp [matched]
      | succ k =>
        simp only [List.take_succ_cons, matched, ih]
        split_ifs <;> omega

/-- Bytes that only stand behind the first one of a character. -/
def IsTail (b : UInt8) : Prop := 0x80 ≤ b.toNat ∧ b.toNat ≤ 0xBF

theorem follow_isTail (b : UInt8) : ∀ range ∈ follow b, 0x80 ≤ range.1 ∧ range.2 ≤ 0xBF := by
  unfold follow tail
  dsimp only
  split_ifs <;> simp

theorem matched_isTail (h : ∀ range ∈ ranges, 0x80 ≤ range.1 ∧ range.2 ≤ 0xBF) :
    ∀ c ∈ bs.take (matched ranges bs), IsTail c := by
  induction ranges generalizing bs with
  | nil => simp [matched]
  | cons range ranges ih =>
    cases bs with
    | nil => simp [matched]
    | cons b bs =>
      rw [matched]
      split_ifs with hb
      · have hrange := h range List.mem_cons_self
        intro c hc
        rcases List.mem_cons.mp hc with rfl | hc
        · exact ⟨by omega, by omega⟩
        · exact ih (fun r hr => h r (List.mem_cons_of_mem _ hr)) c hc
      · simp

theorem follow_eq_nil (h : IsTail b) : follow b = [] := by
  obtain ⟨hlo, hhi⟩ := h
  unfold follow
  dsimp only
  split_ifs <;> first | rfl | omega

theorem decodeFrom_eq (skip : ℕ) : decodeFrom skip bs = decode (bs.drop skip) := by
  induction skip generalizing bs with
  | zero => rfl
  | succ skip ih =>
    cases bs with
    | nil => rfl
    | cons b bs => exact ih

@[simp] theorem decode_nil : decode [] = [] := rfl

theorem decode_cons (b : UInt8) (bs : List UInt8) :
    decode (b :: bs) = unitChar b bs :: decode (bs.drop (matched (follow b) bs)) := by
  rw [decode, decodeFrom, decodeFrom_eq]

theorem length_decode_tails (h : ∀ c ∈ xs, IsTail c) :
    (decode (xs ++ ys)).length = xs.length + (decode ys).length := by
  induction xs with
  | nil => simp
  | cons c xs ih =>
    have hc : follow c = [] := follow_eq_nil (h c List.mem_cons_self)
    have := ih fun d hd => h d (List.mem_cons_of_mem c hd)
    rw [List.cons_append, decode_cons, hc]
    simp only [matched, List.drop_zero, List.length_cons]
    omega

theorem matched_append (h : matched ranges (xs ++ ys) ≤ xs.length) :
    matched ranges xs = matched ranges (xs ++ ys) := by
  have htake := matched_take ranges (xs ++ ys) xs.length
  rw [List.take_left] at htake
  omega

theorem unitChar_append (h : matched (follow b) (xs ++ ys) ≤ xs.length) :
    unitChar b (xs ++ ys) = unitChar b xs := by
  unfold unitChar
  rw [matched_append h]
  by_cases hfull : matched (follow b) (xs ++ ys) = (follow b).length
  · have htake : (xs ++ ys).take (follow b).length = xs.take (follow b).length :=
      List.take_append_of_le_length (by omega)
    simp only [htake]
  · simp [hfull]

/-! ## Boundaries -/

theorem boundary_cons (hk : 0 < k) : Boundary (b :: bs) k ↔
    ∃ j, k = matched (follow b) bs + 1 + j ∧ Boundary (bs.drop (matched (follow b) bs)) j := by
  constructor
  · intro h
    cases h with
    | zero => omega
    | unit h => exact ⟨_, rfl, h⟩
  · rintro ⟨j, rfl, h⟩
    exact .unit h

theorem boundary_add (h : Boundary bs k) : Boundary bs (k + j) ↔ Boundary (bs.drop k) j := by
  induction h with
  | zero => simp
  | @unit b bs k h ih =>
    have hdrop : (b :: bs).drop (matched (follow b) bs + 1 + k) =
        (bs.drop (matched (follow b) bs)).drop k := by
      rw [List.drop_drop, show matched (follow b) bs + 1 + k = (matched (follow b) bs + k) + 1 by omega]
      rfl
    rw [hdrop, ← ih, boundary_cons (by omega)]
    constructor
    · rintro ⟨i, hi, hrest⟩
      rwa [show k + j = i by omega]
    · intro hrest
      exact ⟨k + j, by omega, hrest⟩

/-- **Between units** what is cut is decoded apart. -/
theorem decode_append (h : Boundary (xs ++ ys) xs.length) : decode (xs ++ ys) = decode xs ++ decode ys := by
  induction hn : xs.length using Nat.strongRecOn generalizing xs with
  | _ n ih =>
    cases xs with
    | nil => rfl
    | cons b xs =>
      rw [List.cons_append, List.length_cons, boundary_cons (by omega)] at h
      obtain ⟨j, hj, hrest⟩ := h
      have hle : matched (follow b) (xs ++ ys) ≤ xs.length := by omega
      rw [List.drop_append_of_le_length hle] at hrest
      have hlength : j = (xs.drop (matched (follow b) (xs ++ ys))).length := by
        rw [List.length_drop]
        omega
      rw [hlength] at hrest
      rw [List.cons_append, decode_cons, decode_cons, unitChar_append hle, matched_append hle,
        List.drop_append_of_le_length hle,
        ih _ (by rw [← hn, List.length_cons, List.length_drop]; omega) hrest rfl, List.cons_append]

/-- **Inside a unit** what is cut has more characters when it is decoded apart. -/
theorem length_decode_append_lt (h : ¬ Boundary (xs ++ ys) xs.length) :
    (decode (xs ++ ys)).length < (decode xs).length + (decode ys).length := by
  induction hn : xs.length using Nat.strongRecOn generalizing xs with
  | _ n ih =>
    cases xs with
    | nil => exact absurd .zero h
    | cons b xs =>
      rw [List.cons_append, decode_cons, decode_cons]
      by_cases hle : matched (follow b) (xs ++ ys) ≤ xs.length
      · have hrest : ¬ Boundary (xs.drop (matched (follow b) (xs ++ ys)) ++ ys)
            (xs.drop (matched (follow b) (xs ++ ys))).length := by
          intro hrest
          rw [← List.drop_append_of_le_length hle, List.length_drop] at hrest
          refine h ?_
          rw [List.cons_append, List.length_cons, boundary_cons (by omega)]
          exact ⟨_, by omega, hrest⟩
        have := ih _ (by rw [← hn, List.length_cons, List.length_drop]; omega) hrest rfl
        rw [matched_append hle, List.drop_append_of_le_length hle]
        simp only [List.length_cons]
        omega
      · -- the bytes of the unit behind the cut are a unit each
        obtain ⟨j, hj⟩ : ∃ j, matched (follow b) (xs ++ ys) = xs.length + (j + 1) :=
          ⟨matched (follow b) (xs ++ ys) - xs.length - 1, by omega⟩
        have htails : ∀ c ∈ ys.take (j + 1), IsTail c := by
          intro c hc
          have htail : ∀ c ∈ (xs ++ ys).take (matched (follow b) (xs ++ ys)), IsTail c :=
            matched_isTail (follow_isTail b)
          refine htail c ?_
          rw [hj, List.take_length_add_append]
          exact List.mem_append_right xs hc
        have hfull := matched_le (follow b) (xs ++ ys)
        have hafter : (decode (ys.take (j + 1) ++ ys.drop (j + 1))).length =
            (ys.take (j + 1)).length + (decode (ys.drop (j + 1))).length := length_decode_tails htails
        rw [List.take_append_drop, List.length_take] at hafter
        rw [hj, List.drop_length_add_append]
        rw [List.length_append] at hfull
        simp only [List.length_cons]
        omega

theorem length_decode_append_le (xs ys : List UInt8) :
    (decode (xs ++ ys)).length ≤ (decode xs).length + (decode ys).length := by
  by_cases h : Boundary (xs ++ ys) xs.length
  · exact Nat.le_of_eq (by rw [decode_append h, List.length_append])
  · exact Nat.le_of_lt (length_decode_append_lt h)

/-! ## Encoding -/

/-- `text.encode()` -/
def encode (cs : List Char) : List UInt8 := cs.flatMap String.utf8EncodeChar

@[simp] theorem encode_nil : encode [] = [] := rfl

@[simp] theorem encode_cons (c : Char) (cs : List Char) : encode (c :: cs) = String.utf8EncodeChar c ++ encode cs := by
  simp [encode]

@[simp] theorem encode_append (cs ds : List Char) : encode (cs ++ ds) = encode cs ++ encode ds := by
  simp [encode]

theorem toNat_ofNat {n : ℕ} (h : n < 256) : (UInt8.ofNat n).toNat = n := by
  rw [UInt8.toNat_ofNat']
  omega

theorem char_range (c : Char) : c.val.toNat < 0xD800 ∨ 0xDFFF < c.val.toNat ∧ c.val.toNat < 0x110000 := by
  rcases c.valid with h | h
  · exact Or.inl (by simpa [UInt32.lt_iff_toNat_lt] using h)
  · exact Or.inr (by simpa [UInt32.lt_iff_toNat_lt] using h)

theorem toNat_char_ofNat {n : ℕ} (h : n.isValidChar) : (Char.ofNat n).val.toNat = n := by
  unfold Char.ofNat
  rw [dif_pos h]
  simp [Char.ofNatAux]

theorem encodeChar_ascii {n : ℕ} (h : n < 128) : String.utf8EncodeChar (Char.ofNat n) = [UInt8.ofNat n] := by
  have hvalid : n.isValidChar := Or.inl (by omega)
  rw [String.utf8EncodeChar]
  simp only [toNat_char_ofNat hvalid]
  rw [if_pos (by omega)]

theorem unitChar_full {b : UInt8} {bs rest : List UInt8} (hb : 0x80 ≤ b.toNat) (hbs : bs ≠ [])
    (hlength : (follow b).length = bs.length) (hmatched : matched (follow b) (bs ++ rest) = bs.length) :
    unitChar b (bs ++ rest) =
      Char.ofNat (bs.foldl (fun code c => code * 64 + c.toNat % 64) (leadBits b bs.length)) := by
  have hne : bs.length ≠ 0 := by simpa using hbs
  unfold unitChar
  dsimp only
  rw [if_neg (by omega), hlength, if_pos ⟨hne, hmatched⟩, List.take_left]

/-- **The bytes of a character** are one unit, which is read as the character. -/
theorem encode_unit (c : Char) (rest : List UInt8) : ∃ b bs, String.utf8EncodeChar c = b :: bs ∧
    matched (follow b) (bs ++ rest) = bs.length ∧ unitChar b (bs ++ rest) = c := by
  have hrange := char_range c
  have hchar : Char.ofNat c.val.toNat = c := Char.ofNat_toNat c
  unfold String.utf8EncodeChar
  dsimp only
  generalize c.val.toNat = v at hrange hchar
  by_cases h₁ : v ≤ 0x7f
  · have hv : (UInt8.ofNat v).toNat = v := toNat_ofNat (by omega)
    have hfollow : follow (UInt8.ofNat v) = [] := by
      unfold follow
      dsimp only
      rw [hv]
      split_ifs <;> first | rfl | omega
    refine ⟨_, [], if_pos h₁, by rw [hfollow]; rfl, ?_⟩
    unfold unitChar
    dsimp only
    rw [if_pos (by omega), hv, hchar]
  rw [if_neg h₁]
  by_cases h₂ : v ≤ 0x7ff
  · have hlead : (UInt8.ofNat (v / 64 % 0x20 + 0xc0)).toNat = v / 64 % 0x20 + 0xc0 := toNat_ofNat (by omega)
    have hlast : (UInt8.ofNat (v % 0x40 + 0x80)).toNat = v % 0x40 + 0x80 := toNat_ofNat (by omega)
    have hfollow : follow (UInt8.ofNat (v / 64 % 0x20 + 0xc0)) = [tail] := by
      unfold follow
      dsimp only
      rw [hlead, if_pos (by omega)]
    have hmatched : matched (follow (UInt8.ofNat (v / 64 % 0x20 + 0xc0)))
        ([UInt8.ofNat (v % 0x40 + 0x80)] ++ rest) = 1 := by
      rw [hfollow]
      simp only [tail, List.cons_append, List.nil_append, matched, hlast]
      rw [if_pos (by omega)]
    refine ⟨_, _, if_pos h₂, hmatched, ?_⟩
    rw [unitChar_full (by omega) (by simp) (by rw [hfollow]; rfl) hmatched, ← hchar]
    congr 1
    simp only [List.foldl_cons, List.foldl_nil, leadBits, List.length_cons, List.length_nil, hlead, hlast]
    omega
  rw [if_neg h₂]
  by_cases h₃ : v ≤ 0xffff
  · have hlead : (UInt8.ofNat (v / 4096 % 0x10 + 0xe0)).toNat = v / 4096 % 0x10 + 0xe0 := toNat_ofNat (by omega)
    have hnext : (UInt8.ofNat (v / 64 % 0x40 + 0x80)).toNat = v / 64 % 0x40 + 0x80 := toNat_ofNat (by omega)
    have hlast : (UInt8.ofNat (v % 0x40 + 0x80)).toNat = v % 0x40 + 0x80 := toNat_ofNat (by omega)
    have hfollow : ∃ lo hi, follow (UInt8.ofNat (v / 4096 % 0x10 + 0xe0)) = [(lo, hi), tail] ∧
        lo ≤ v / 64 % 0x40 + 0x80 ∧ v / 64 % 0x40 + 0x80 ≤ hi := by
      unfold follow
      dsimp only
      rw [hlead, if_neg (by omega)]
      split_ifs
      · exact ⟨_, _, rfl, by omega, by omega⟩
      · exact ⟨_, _, rfl, by omega, by omega⟩
      · exact ⟨_, _, rfl, by omega, by omega⟩
      all_goals omega
    obtain ⟨lo, hi, hfollow, hlo, hhi⟩ := hfollow
    have hmatched : matched (follow (UInt8.ofNat (v / 4096 % 0x10 + 0xe0)))
        ([UInt8.ofNat (v / 64 % 0x40 + 0x80), UInt8.ofNat (v % 0x40 + 0x80)] ++ rest) = 2 := by
      rw [hfollow]
      simp only [tail, List.cons_append, List.nil_append, matched, hlast, hnext]
      rw [if_pos ⟨hlo, hhi⟩, if_pos (by omega)]
    refine ⟨_, _, if_pos h₃, hmatched, ?_⟩
    rw [unitChar_full (by omega) (by simp) (by rw [hfollow]; rfl) hmatched, ← hchar]
    congr 1
    simp only [List.foldl_cons, List.foldl_nil, leadBits, List.length_cons, List.length_nil, hlead, hlast, hnext]
    omega
  · rw [if_neg h₃]
    have hlead : (UInt8.ofNat (v / 262144 % 0x08 + 0xf0)).toNat = v / 262144 % 0x08 + 0xf0 := toNat_ofNat (by omega)
    have hsecond : (UInt8.ofNat (v / 4096 % 0x40 + 0x80)).toNat = v / 4096 % 0x40 + 0x80 := toNat_ofNat (by omega)
    have hnext : (UInt8.ofNat (v / 64 % 0x40 + 0x80)).toNat = v / 64 % 0x40 + 0x80 := toNat_ofNat (by omega)
    have hlast : (UInt8.ofNat (v % 0x40 + 0x80)).toNat = v % 0x40 + 0x80 := toNat_ofNat (by omega)
    have hfollow : ∃ lo hi, follow (UInt8.ofNat (v / 262144 % 0x08 + 0xf0)) = [(lo, hi), tail, tail] ∧
        lo ≤ v / 4096 % 0x40 + 0x80 ∧ v / 4096 % 0x40 + 0x80 ≤ hi := by
      unfold follow
      dsimp only
      rw [hlead, if_neg (by omega), if_neg (by omega), if_neg (by omega), if_neg (by omega)]
      split_ifs
      · exact ⟨_, _, rfl, by omega, by omega⟩
      · exact ⟨_, _, rfl, by omega, by omega⟩
      · exact ⟨_, _, rfl, by omega, by omega⟩
      all_goals omega
    obtain ⟨lo, hi, hfollow, hlo, hhi⟩ := hfollow
    have hmatched : matched (follow (UInt8.ofNat (v / 262144 % 0x08 + 0xf0)))
        ([UInt8.ofNat (v / 4096 % 0x40 + 0x80), UInt8.ofNat (v / 64 % 0x40 + 0x80), UInt8.ofNat (v % 0x40 + 0x80)] ++
          rest) = 3 := by
      rw [hfollow]
      simp only [tail, List.cons_append, List.nil_append, matched, hlast, hnext, hsecond]
      rw [if_pos ⟨hlo, hhi⟩, if_pos (by omega), if_pos (by omega)]
    refine ⟨_, _, rfl, hmatched, ?_⟩
    rw [unitChar_full (by omega) (by simp) (by rw [hfollow]; rfl) hmatched, ← hchar]
    congr 1
    simp only [List.foldl_cons, List.foldl_nil, leadBits, List.length_cons, List.length_nil, hlead, hlast, hnext, hsecond]
    omega

theorem decode_encodeChar (c : Char) (rest : List UInt8) :
    decode (String.utf8EncodeChar c ++ rest) = c :: decode rest := by
  obtain ⟨b, bs, heq, hmatched, hunit⟩ := encode_unit c rest
  rw [heq, List.cons_append, decode_cons, hunit, hmatched, List.drop_left]

/-- **Round trip.** -/
theorem decode_encode_append (cs : List Char) (rest : List UInt8) : decode (encode cs ++ rest) = cs ++ decode rest := by
  induction cs with
  | nil => rfl
  | cons c cs ih => rw [encode_cons, List.append_assoc, decode_encodeChar, ih, List.cons_append]

theorem decode_encode (cs : List Char) : decode (encode cs) = cs := by
  have h := decode_encode_append cs []
  rwa [List.append_nil, decode_nil, List.append_nil] at h

end Smara.Lib.Utf8
