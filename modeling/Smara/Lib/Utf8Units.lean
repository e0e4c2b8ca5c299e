import Smara.Lib.Utf8

/-! # The units of a byte sequence

A byte sequence is cut into the units that the decoder reads, each of which is one character. A unit is the bytes of its
character, or it is read as U+FFFD.

* `units`, `flatten_units`, `decode_eq`: the units, which are the bytes and the characters.
* `unit_cases`: a unit is written as it was, or is broken.
* `Broken`: what a broken unit is. -/

namespace Smara.Lib.Utf8

/-- The units, with the first `skip` bytes passed over. -/
def unitsFrom : ℕ → List UInt8 → List (List UInt8)
  | _, [] => []
  | skip + 1, _ :: bs => unitsFrom skip bs
  | 0, b :: bs => (b :: bs.take (matched (follow b) bs)) :: unitsFrom (matched (follow b) bs) bs

/-- **The units** of a byte sequence. -/
def units (bs : List UInt8) : List (List UInt8) := unitsFrom 0 bs

def charOf : List UInt8 → Char
  | [] => '\uFFFD'
  | b :: bs => unitChar b bs

theorem unitChar_take (b : UInt8) (bs : List UInt8) : unitChar b (bs.take (matched (follow b) bs)) = unitChar b bs := by
  have hsplit : bs.take (matched (follow b) bs) ++ bs.drop (matched (follow b) bs) = bs := List.take_append_drop ..
  have hle : matched (follow b) (bs.take (matched (follow b) bs) ++ bs.drop (matched (follow b) bs)) ≤
      (bs.take (matched (follow b) bs)).length := by
    rw [hsplit, List.length_take]
    have := matched_le (follow b) bs
    omega
  have h := unitChar_append hle
  rw [hsplit] at h
  exact h.symm

theorem decodeFrom_eq_map (skip : ℕ) (bs : List UInt8) : decodeFrom skip bs = (unitsFrom skip bs).map charOf := by
  induction bs generalizing skip with
  | nil => rfl
  | cons b bs ih =>
    cases skip with
    | zero => rw [decodeFrom, unitsFrom, List.map_cons, ih, charOf, unitChar_take]
    | succ skip => exact ih skip

/-- **The characters** are those of the units. -/
theorem decode_eq (bs : List UInt8) : decode bs = (units bs).map charOf := decodeFrom_eq_map 0 bs

/-- A unit that is read as U+FFFD: at most three bytes, none of them ASCII, and three only behind the first byte of a
character of four. -/
structure Broken (u : List UInt8) : Prop where
  char : charOf u = '\uFFFD'
  nonempty : u ≠ []
  high : ∀ c ∈ u, 0x80 ≤ c.toNat
  short : u.length ≤ 2 ∨ ∃ b c d, u = [b, c, d] ∧ 0xF0 ≤ b.toNat

theorem follow_cases (b : UInt8) : follow b = [] ∨ (0xC2 ≤ b.toNat ∧ b.toNat ≤ 0xDF ∧ follow b = [tail]) ∨
    (0xE0 ≤ b.toNat ∧ b.toNat ≤ 0xEF ∧ ∃ lo hi, follow b = [(lo, hi), tail] ∧ 0x80 ≤ lo ∧ hi ≤ 0xBF ∧
      (b.toNat = 0xE0 → 0xA0 ≤ lo) ∧ (b.toNat = 0xED → hi ≤ 0x9F)) ∨
    (0xF0 ≤ b.toNat ∧ b.toNat ≤ 0xF4 ∧ ∃ lo hi, follow b = [(lo, hi), tail, tail] ∧ 0x80 ≤ lo ∧ hi ≤ 0xBF ∧
      (b.toNat = 0xF0 → 0x90 ≤ lo) ∧ (b.toNat = 0xF4 → hi ≤ 0x8F)) := by
  unfold follow tail
  dsimp only
  split_ifs
  · exact Or.inr (Or.inl ⟨by omega, by omega, rfl⟩)
  · exact Or.inr (Or.inr (Or.inl ⟨by omega, by omega, _, _, rfl, by omega, by omega, by omega, by omega⟩))
  · exact Or.inr (Or.inr (Or.inl ⟨by omega, by omega, _, _, rfl, by omega, by omega, by omega, by omega⟩))
  · exact Or.inr (Or.inr (Or.inl ⟨by omega, by omega, _, _, rfl, by omega, by omega, by omega, by omega⟩))
  · exact Or.inr (Or.inr (Or.inr ⟨by omega, by omega, _, _, rfl, by omega, by omega, by omega, by omega⟩))
  · exact Or.inr (Or.inr (Or.inr ⟨by omega, by omega, _, _, rfl, by omega, by omega, by omega, by omega⟩))
  · exact Or.inr (Or.inr (Or.inr ⟨by omega, by omega, _, _, rfl, by omega, by omega, by omega, by omega⟩))
  · exact Or.inl rfl

theorem matched_cons_eq {lo hi n : ℕ} {c : UInt8} (h : matched ((lo, hi) :: ranges) (c :: bs) = n + 1) :
    lo ≤ c.toNat ∧ c.toNat ≤ hi ∧ matched ranges bs = n := by
  rw [matched] at h
  split_ifs at h with hc
  exact ⟨hc.1, hc.2, Nat.succ.inj h⟩

theorem encode_full {b : UInt8} {bs : List UInt8} (hbs : bs ≠ []) (hlength : (follow b).length = bs.length)
    (hmatched : matched (follow b) bs = bs.length) :
    String.utf8EncodeChar (Char.ofNat (bs.foldl (fun code c => code * 64 + c.toNat % 64) (leadBits b bs.length))) =
      b :: bs := by
  have hbyte : ∀ x : UInt8, ∀ n : ℕ, n = x.toNat → UInt8.ofNat n = x := by
    rintro x _ rfl
    exact UInt8.ofNat_toNat
  rcases follow_cases b with h | ⟨hlo, hhi, h⟩ | ⟨hlo, hhi, l, r, h, hl, hr, hfirst, hlast⟩ |
    ⟨hlo, hhi, l, r, h, hl, hr, hfirst, hlast⟩
  · rw [h] at hlength
    exact absurd (List.length_eq_zero_iff.mp hlength.symm) hbs
  all_goals rw [h] at hlength hmatched
  · obtain ⟨c, rfl⟩ := List.length_eq_one_iff.mp hlength.symm
    obtain ⟨hc, hc', -⟩ := matched_cons_eq hmatched
    simp only [List.foldl_cons, List.foldl_nil, leadBits, List.length_cons, List.length_nil]
    have hvalid : (b.toNat % 2 ^ (6 - (0 + 1)) * 64 + c.toNat % 64).isValidChar := Or.inl (by omega)
    rw [String.utf8EncodeChar]
    simp only [toNat_char_ofNat hvalid]
    rw [if_neg (by omega), if_pos (by omega), hbyte b _ (by omega), hbyte c _ (by omega)]
  · obtain ⟨c, d, rfl⟩ := List.length_eq_two.mp hlength.symm
    obtain ⟨hc, hc', hmatched⟩ := matched_cons_eq hmatched
    obtain ⟨hd, hd', -⟩ := matched_cons_eq hmatched
    simp only [List.foldl_cons, List.foldl_nil, leadBits, List.length_cons, List.length_nil]
    have hvalid : ((b.toNat % 2 ^ (6 - (0 + 1 + 1)) * 64 + c.toNat % 64) * 64 + d.toNat % 64).isValidChar := by
      unfold Nat.isValidChar
      omega
    rw [String.utf8EncodeChar]
    simp only [toNat_char_ofNat hvalid]
    rw [if_neg (by omega), if_neg (by omega), if_pos (by omega), hbyte b _ (by omega), hbyte c _ (by omega),
      hbyte d _ (by omega)]
  · obtain ⟨c, d, e, rfl⟩ := List.length_eq_three.mp hlength.symm
    obtain ⟨hc, hc', hmatched⟩ := matched_cons_eq hmatched
    obtain ⟨hd, hd', hmatched⟩ := matched_cons_eq hmatched
    obtain ⟨he, he', -⟩ := matched_cons_eq hmatched
    simp only [List.foldl_cons, List.foldl_nil, leadBits, List.length_cons, List.length_nil]
    have hvalid : (((b.toNat % 2 ^ (6 - (0 + 1 + 1 + 1)) * 64 + c.toNat % 64) * 64 + d.toNat % 64) * 64 +
        e.toNat % 64).isValidChar := by
      unfold Nat.isValidChar
      omega
    rw [String.utf8EncodeChar]
    simp only [toNat_char_ofNat hvalid]
    rw [if_neg (by omega), if_neg (by omega), if_neg (by omega), hbyte b _ (by omega), hbyte c _ (by omega),
      hbyte d _ (by omega), hbyte e _ (by omega)]

theorem mem_unitsFrom {skip : ℕ} {bs u : List UInt8} (hu : u ∈ unitsFrom skip bs) :
    ∃ b t, u = b :: t ∧ matched (follow b) t = t.length := by
  induction bs generalizing skip with
  | nil =>
    rw [unitsFrom] at hu
    cases hu
  | cons b bs ih =>
    cases skip with
    | succ skip => exact ih hu
    | zero =>
      rw [unitsFrom] at hu
      rcases List.mem_cons.mp hu with rfl | hu
      · refine ⟨b, _, rfl, ?_⟩
        have := matched_le (follow b) bs
        rw [matched_take, List.length_take]
        omega
      · exact ih hu

theorem matched_le_length (ranges : List (ℕ × ℕ)) (bs : List UInt8) : matched ranges bs ≤ ranges.length := by
  induction ranges generalizing bs with
  | nil => simp [matched]
  | cons range ranges ih =>
    cases bs with
    | nil => simp [matched]
    | cons b bs =>
      have := ih bs
      rw [matched, List.length_cons]
      split_ifs <;> omega

/-- **A unit** is written as it was, or is broken. -/
theorem unit_cases {bs u : List UInt8} (hu : u ∈ units bs) : String.utf8EncodeChar (charOf u) = u ∨ Broken u := by
  obtain ⟨b, t, rfl, hmatched⟩ := mem_unitsFrom hu
  have hle := matched_le_length (follow b) t
  by_cases hascii : b.toNat < 0x80
  · have hfollow : follow b = [] := by
      unfold follow
      dsimp only
      split_ifs <;> first | rfl | omega
    rw [hmatched, hfollow] at hle
    obtain rfl : t = [] := List.length_eq_zero_iff.mp (Nat.le_zero.mp hle)
    left
    rw [charOf, unitChar]
    simp only [if_pos hascii]
    rw [encodeChar_ascii hascii, UInt8.ofNat_toNat]
  by_cases hfull : (follow b).length ≠ 0 ∧ matched (follow b) t = (follow b).length
  · left
    have hlength : (follow b).length = t.length := by omega
    have hne : t ≠ [] := by
      rintro rfl
      exact hfull.1 hlength
    have hchar : charOf (b :: t) =
        Char.ofNat (t.foldl (fun code c => code * 64 + c.toNat % 64) (leadBits b t.length)) := by
      conv_lhs => rw [charOf, ← List.append_nil t]
      exact unitChar_full (by omega) hne hlength (by rwa [List.append_nil])
    rw [hchar, encode_full hne hlength hmatched]
  · right
    refine ⟨?_, List.cons_ne_nil _ _, ?_, ?_⟩
    · rw [charOf, unitChar]
      simp only [if_neg hascii, if_neg hfull]
    · have htail : ∀ c ∈ t.take (matched (follow b) t), IsTail c := matched_isTail (follow_isTail b)
      rw [hmatched, List.take_length] at htail
      intro c hc
      rcases List.mem_cons.mp hc with rfl | hc
      · omega
      · exact (htail c hc).1
    · rw [hmatched] at hle hfull
      rcases follow_cases b with h | ⟨-, -, h⟩ | ⟨-, -, l, r, h, -⟩ | ⟨hlo, -, l, r, h, -⟩
      all_goals
        rw [h] at hle hfull
        simp only [List.length_cons, List.length_nil] at hle hfull ⊢
      · exact Or.inl (by omega)
      · exact Or.inl (by omega)
      · exact Or.inl (by omega)
      · by_cases htwo : t.length = 2
        · obtain ⟨c, d, rfl⟩ := List.length_eq_two.mp htwo
          exact Or.inr ⟨b, c, d, rfl, hlo⟩
        · exact Or.inl (by omega)

end Smara.Lib.Utf8
