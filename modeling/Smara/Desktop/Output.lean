import Smara.Lib.Machine
import Smara.Lib.Utf8Stream

/-! # The output of a terminal

A log grows while it is polled. `_read_output` remembers how many of its bytes have been read, and the characters that
were decoded with the last of them but did not fit.

* `countBytes`: the bytes up to a number of characters.
* `readOutput`, `poll`: a poll.
* `Inv`: what was returned, and the text that is carried over, is the decoding of what was read.
* `Sound`: no character is cut.
* `delivered`: in a run of sound steps all output is delivered, in answers of at most `max_chars` characters. -/

namespace Smara.Desktop.Output

open Lib.Machine Lib.Utf8

abbrev Text := List Char
abbrev Bytes := List UInt8

def maxOutputBytes : ℕ := 4 * 1024 * 1024
def maxPollChars : ℕ := 16000

/-- An entry of the journal, as far as its output goes. -/
structure Entry where
  offset : ℕ := 0
  bytes : ℕ := 0
  pendingOutput : Text := []

/-- The loop over the bytes, from a decoder that holds some: how many characters there are when the number is reached
(`none` if it is not), and how many bytes it has taken. -/
def countBytes (returned : ℕ) (buffer : Bytes) (produced consumed : ℕ) : Bytes → Option ℕ × ℕ
  | [] => (none, consumed)
  | byte :: data =>
    let chunk := feed buffer [byte] false
    if returned ≤ produced + chunk.1.length then (some (produced + chunk.1.length), consumed + 1)
    else countBytes returned chunk.2 (produced + chunk.1.length) (consumed + 1) data

/-- `_read_output`, once the data have been read: what it returns, and the entry. -/
def readData (offset size : ℕ) (data : Bytes) (maxChars : ℕ) : Text × Entry :=
  let decoded := feed [] data (data.length = size - offset)
  let returned := decoded.1.take maxChars
  if decoded.1.length > maxChars then
    let count := countBytes returned.length [] 0 0 data
    (returned, ⟨offset + count.2, size, (count.1.map fun n => (decoded.1.take n).drop returned.length).getD []⟩)
  else (returned, ⟨offset + (data.length - decoded.2.length), size, []⟩)

/-- What is read of a log of some size. -/
def dataOf (log : Bytes) (size offset maxChars : ℕ) : Bytes := (log.drop offset).take (min (size - offset) (maxChars * 4))

/-- `_read_output`, without text that is carried over -/
def readLog (log : Bytes) (e : Entry) (maxChars : ℕ) : Text × Entry :=
  let size := min log.length maxOutputBytes
  let offset := min e.offset size
  readData offset size (dataOf log size offset maxChars) maxChars

def readOutput (log : Bytes) (e : Entry) (maxChars : ℕ) : Text × Entry :=
  let pending := e.pendingOutput
  if pending = [] then readLog log e maxChars
  else if maxChars ≤ pending.length then (pending.take maxChars, { e with pendingOutput := pending.drop maxChars })
  else
    let rest := readLog log e (maxChars - pending.length)
    (pending ++ rest.1, rest.2)

/-- `max(1, min(max_chars, MAX_POLL_CHARS))` -/
def clamp (n : ℕ) : ℕ := max 1 (min n maxPollChars)

def Entry.HasMore (e : Entry) : Prop := e.offset < e.bytes ∨ e.pendingOutput ≠ []

/-- The log, the entry, and what the polls have returned. -/
structure World where
  log : Bytes := []
  entry : Entry := {}
  outputs : List Text := []

instance (e : Entry) : Decidable e.HasMore := inferInstanceAs (Decidable (_ ∨ _))

inductive Op
  | append (bytes : Bytes)
  | poll (maxChars : ℕ)

def step (w : World) : Op → World
  | .append bytes => { w with log := w.log ++ bytes }
  | .poll maxChars =>
    let r := readOutput w.log w.entry (clamp maxChars)
    { w with entry := r.2, outputs := w.outputs ++ [r.1] }

/-! ### Sound steps -/

/-- The byte with which `n` characters are decoded begins a unit of its own. -/
def Cut (n : ℕ) (data : Bytes) : Prop :=
  ∃ us v ws, data = us ++ v :: ws ∧ (decoded us).length < n ∧ n ≤ (decoded (us ++ [v])).length ∧ held (us ++ [v]) ≠ []

/-- **No character is cut.** Bytes that are appended to a log that has been read to its end do not go on with its last
character; the byte with which a poll has enough characters begins no other; and a poll that returns just the text that
was carried over is not told that the log has been read to its end when it has grown. -/
def Sound (w : World) : Op → Prop
  | .append bytes => w.entry.offset = w.log.length → Boundary (w.log ++ bytes) w.log.length
  | .poll maxChars =>
    let n := clamp maxChars
    let pending := w.entry.pendingOutput
    (pending.length < n → n - pending.length < (decode (dataOf w.log w.log.length w.entry.offset (n - pending.length))).length →
      ¬ Cut (n - pending.length) (dataOf w.log w.log.length w.entry.offset (n - pending.length))) ∧
      (pending.length = n → w.entry.offset = w.entry.bytes → w.entry.bytes = w.log.length)

/-! ### The bytes of some characters -/

variable {us data : Bytes} {n : ℕ}

theorem feed_held (xs ys : Bytes) : decoded (xs ++ ys) = decoded xs ++ (feed (held xs) ys false).1 ∧
    held (xs ++ ys) = (feed (held xs) ys false).2 := ⟨decoded_append xs ys, held_append xs ys⟩

/-- **The loop** stops at the byte with which there are enough characters. -/
theorem countBytes_spec (us : Bytes) (hbefore : (decoded us).length < n) (hafter : n ≤ (decoded (us ++ data)).length) :
    ∃ vs v ws, data = vs ++ v :: ws ∧ (decoded (us ++ vs)).length < n ∧ n ≤ (decoded (us ++ vs ++ [v])).length ∧
      countBytes n (held us) (decoded us).length us.length data =
        (some (decoded (us ++ vs ++ [v])).length, (us ++ vs ++ [v]).length) := by
  induction data generalizing us with
  | nil =>
    rw [List.append_nil] at hafter
    omega
  | cons v data ih =>
    obtain ⟨hdecoded, hheld⟩ := feed_held us [v]
    have hlength := congrArg List.length hdecoded
    rw [List.length_append] at hlength
    rw [countBytes]
    rw [← hlength, ← hheld]
    split_ifs with henough
    · exact ⟨[], v, data, rfl, by rwa [List.append_nil], by rwa [List.append_nil], by simp⟩
    · rw [List.append_cons] at hafter
      obtain ⟨vs, v', ws, rfl, hlt, hle, hcount⟩ := ih (us ++ [v]) (Nat.not_le.mp henough) hafter
      rw [List.length_append, List.length_singleton] at hcount
      refine ⟨v :: vs, v', ws, rfl, ?_, ?_, ?_⟩
      · rwa [List.append_cons us v vs]
      · rwa [List.append_cons us v vs]
      · rw [hcount, List.append_cons us v vs]

/-! ### A reading of the log -/

variable {log rest : Bytes} {e : Entry} {w : World} {offset k : ℕ} {final : Bool}

/-- What is decoded of the data, which are followed by nothing if they are the final ones, is the text up to a boundary;
it has the characters that are decoded in any case, and at most one more. -/
theorem feed_spec (data : Bytes) (hfinal : final = true → rest = []) :
    Boundary (data ++ rest) (data.length - (feed [] data final).2.length) ∧
      (feed [] data final).1 = decode ((data ++ rest).take (data.length - (feed [] data final).2.length)) ∧
        (feed [] data final).1.length ≤ (decode data).length ∧
          ∃ more, (feed [] data final).1 = decoded data ++ more ∧ more.length ≤ 1 := by
  have heq := decode_decoded data
  cases final with
  | true =>
    obtain rfl := hfinal rfl
    rw [List.append_nil]
    exact ⟨boundary_length data, by rw [show (feed [] data true).2.length = 0 from rfl, Nat.sub_zero, List.take_length]; rfl,
      Nat.le_refl _, decode (held data), heq, length_decode_held data⟩
  | false =>
    have hlength := length_held data
    have hsettled : data.length - (feed [] data false).2.length = settled data := by
      show data.length - (held data).length = settled data
      omega
    rw [hsettled]
    refine ⟨boundary_settled data rest, ?_, ?_, [], (List.append_nil _).symm, Nat.zero_le 1⟩
    · rw [List.take_append_of_le_length (settled_le data)]
      rfl
    · rw [heq, List.length_append]
      exact Nat.le_add_right _ _

/-- What a reading of the log does: `k` bytes more are read, up to a boundary, and their characters are returned or
carried over. -/
structure Reads (log : Bytes) (offset k : ℕ) (r : Text × Entry) : Prop where
  offset_eq : r.2.offset = offset + k
  le : offset + k ≤ log.length
  bytes : r.2.bytes = log.length
  boundary : Boundary (log.drop offset) k
  text : r.1 ++ r.2.pendingOutput = decode ((log.drop offset).take k)

/-- **A reading of the log** that cuts no character. -/
theorem exists_reads (hoffset : offset ≤ log.length) (hpos : 0 < n)
    (hcut : n < (decode (dataOf log log.length offset n)).length → ¬ Cut n (dataOf log log.length offset n)) :
    ∃ k, Reads log offset k (readData offset log.length (dataOf log log.length offset n) n) := by
  have hlog : (log.drop offset).length = log.length - offset := List.length_drop
  obtain ⟨rest, hrest⟩ : ∃ rest, log.drop offset = dataOf log log.length offset n ++ rest :=
    ⟨_, (List.take_append_drop _ _).symm⟩
  generalize dataOf log log.length offset n = data at hcut hrest ⊢
  rw [hrest, List.length_append] at hlog
  have hfinal : decide (data.length = log.length - offset) = true → rest = [] := by
    intro h
    have := of_decide_eq_true h
    exact List.eq_nil_of_length_eq_zero (by omega)
  obtain ⟨hboundary, htext, hdecode, more, hmore, hone⟩ := feed_spec data hfinal
  unfold readData
  generalize feed [] data (decide (data.length = log.length - offset)) = r at hboundary htext hdecode hmore ⊢
  simp only
  split_ifs with hlong
  · have hlength := congrArg List.length hmore
    rw [List.length_append] at hlength
    have hreturned : (r.1.take n).length = n := by
      rw [List.length_take]
      omega
    obtain ⟨us, v, ws, hdata, hlt, hle, hcount⟩ := countBytes_spec [] (show (decoded []).length < n from hpos)
      (show n ≤ (decoded data).length by omega)
    have hwhole : held (us ++ [v]) = [] := by
      by_contra hne
      exact hcut (by omega) ⟨us, v, ws, hdata, hlt, hle, hne⟩
    rw [List.append_cons] at hdata
    rw [List.nil_append] at hcount hle
    generalize us ++ [v] = front at hdata hcount hle hwhole
    have hsettled : settled front = front.length := by
      have := length_held front
      rwa [hwhole, List.length_nil, Nat.add_zero] at this
    have hfront : log.drop offset = front ++ (ws ++ rest) := by rw [hrest, hdata, List.append_assoc]
    have hr : r.1 = decoded front ++ (decoded ws ++ more) := by
      rw [hmore, hdata, decoded_append, hwhole, List.nil_append, List.append_assoc]
    have hcount' : countBytes n [] 0 0 data = (some (decoded front).length, front.length) := hcount
    rw [hreturned, hcount']
    refine ⟨front.length, rfl, ?_, rfl, ?_, ?_⟩
    · rw [hdata, List.length_append] at hlog
      omega
    · rw [hfront, ← hsettled]
      exact boundary_settled front _
    · show r.1.take n ++ (r.1.take (decoded front).length).drop n = _
      rw [hr, List.take_left, List.take_append_of_le_length hle, List.take_append_drop, hfront, List.take_left]
      unfold decoded
      rw [hsettled, List.take_length]
  · refine ⟨data.length - r.2.length, rfl, by show offset + _ ≤ _; omega, rfl, hrest ▸ hboundary, ?_⟩
    rw [List.append_nil, List.take_of_length_le (by omega), hrest]
    exact htext

theorem readOutput_of_short (h : e.pendingOutput.length < n) : readOutput log e n =
    (e.pendingOutput ++ (readLog log e (n - e.pendingOutput.length)).1, (readLog log e (n - e.pendingOutput.length)).2) := by
  unfold readOutput
  simp only
  split_ifs with hnil hle
  · rw [hnil]
    rfl
  · exact absurd hle (Nat.not_le.mpr h)
  · rfl

/-- **What was read** is a whole number of characters, and they have been returned or are carried over. -/
structure Inv (w : World) : Prop where
  offset : w.entry.offset ≤ w.entry.bytes
  bytes : w.entry.bytes ≤ w.log.length
  boundary : Boundary w.log w.entry.offset
  text : w.outputs.flatten ++ w.entry.pendingOutput = decode (w.log.take w.entry.offset)

theorem inv_start : Inv {} := ⟨Nat.le_refl 0, Nat.le_refl 0, .zero, rfl⟩

theorem inv_append (h : Inv w) {bytes : Bytes} (hsound : Sound w (.append bytes)) : Inv (step w (.append bytes)) := by
  have hoffset := Nat.le_trans h.offset h.bytes
  refine ⟨h.offset, ?_, ?_, ?_⟩
  · show w.entry.bytes ≤ (w.log ++ bytes).length
    have := h.bytes
    rw [List.length_append]
    omega
  · show Boundary (w.log ++ bytes) w.entry.offset
    by_cases hend : w.entry.offset = w.log.length
    · rw [hend]
      exact hsound hend
    · exact boundary_append h.boundary (by omega) bytes
  · show _ = decode ((w.log ++ bytes).take w.entry.offset)
    rw [List.take_append_of_le_length hoffset]
    exact h.text

/-- **A poll** returns what comes next, and has read the log to its end if it says so. -/
theorem inv_poll (h : Inv w) (hsmall : w.log.length ≤ maxOutputBytes) {m : ℕ} (hsound : Sound w (.poll m)) :
    Inv (step w (.poll m)) ∧
      (¬ (step w (.poll m)).entry.HasMore → (step w (.poll m)).entry.offset = w.log.length) := by
  obtain ⟨hcut, hstale⟩ := hsound
  have hoffset := Nat.le_trans h.offset h.bytes
  unfold step
  simp only
  have hpos : 0 < clamp m := Nat.lt_of_lt_of_le Nat.one_pos (Nat.le_max_left _ _)
  generalize clamp m = n at hcut hstale hpos ⊢
  by_cases hshort : w.entry.pendingOutput.length < n
  · obtain ⟨k, hreads⟩ := exists_reads hoffset (by omega) (hcut hshort)
    have hlog : readLog w.log w.entry (n - w.entry.pendingOutput.length) = readData w.entry.offset w.log.length
        (dataOf w.log w.log.length w.entry.offset (n - w.entry.pendingOutput.length)) (n - w.entry.pendingOutput.length) := by
      unfold readLog
      simp only
      rw [Nat.min_eq_left hsmall, Nat.min_eq_left hoffset]
    rw [readOutput_of_short hshort, hlog]
    generalize readData _ _ _ _ = r at hreads ⊢
    refine ⟨⟨?_, Nat.le_of_eq hreads.bytes, ?_, ?_⟩, fun hmore => ?_⟩
    · show r.2.offset ≤ r.2.bytes
      rw [hreads.offset_eq, hreads.bytes]
      exact hreads.le
    · show Boundary w.log r.2.offset
      rw [hreads.offset_eq, boundary_add h.boundary]
      exact hreads.boundary
    · show (w.outputs ++ [w.entry.pendingOutput ++ r.1]).flatten ++ r.2.pendingOutput = decode (w.log.take r.2.offset)
      rw [hreads.offset_eq, decode_take_add h.boundary hoffset, ← h.text, ← hreads.text]
      simp
    · have hless := hreads.le
      have := not_or.mp hmore
      have hend : ¬ r.2.offset < r.2.bytes := this.1
      rw [hreads.offset_eq, hreads.bytes] at hend
      show r.2.offset = _
      rw [hreads.offset_eq]
      omega
  · have hne : w.entry.pendingOutput ≠ [] := by
      intro hnil
      rw [hnil] at hshort
      exact hshort hpos
    have hread : readOutput w.log w.entry n =
        (w.entry.pendingOutput.take n, { w.entry with pendingOutput := w.entry.pendingOutput.drop n }) := by
      unfold readOutput
      simp only
      rw [if_neg hne, if_pos (Nat.not_lt.mp hshort)]
    rw [hread]
    refine ⟨⟨h.offset, h.bytes, h.boundary, ?_⟩, fun hmore => ?_⟩
    · show (w.outputs ++ [w.entry.pendingOutput.take n]).flatten ++ w.entry.pendingOutput.drop n = _
      rw [← h.text]
      simp
    · obtain ⟨hend, hpending⟩ := not_or.mp hmore
      have hdrop := List.drop_eq_nil_iff.mp (not_not.mp hpending)
      have hend' : ¬ w.entry.offset < w.entry.bytes := hend
      have hsame : w.entry.offset = w.entry.bytes := by
        have := h.offset
        omega
      show w.entry.offset = _
      rw [hsame]
      exact hstale (by omega) hsame

/-! ### Runs -/

theorem log_run (w : World) (ops : List Op) : w.log.length ≤ (run step w ops).log.length := by
  induction ops generalizing w with
  | nil => exact Nat.le_refl _
  | cons op ops ih =>
    rw [run_cons]
    refine Nat.le_trans ?_ (ih _)
    cases op with
    | append bytes =>
      show _ ≤ (w.log ++ bytes).length
      rw [List.length_append]
      exact Nat.le_add_right _ _
    | poll m => exact Nat.le_refl _

theorem inv_ops (h : Inv w) {ops : List Op} (hsmall : (run step w ops).log.length ≤ maxOutputBytes)
    (hsound : Along step Sound w ops) : Inv (run step w ops) := by
  induction ops generalizing w with
  | nil => exact h
  | cons op ops ih =>
    rw [run_cons] at hsmall ⊢
    obtain ⟨hop, hsound⟩ := along_cons.mp hsound
    refine ih ?_ hsmall hsound
    cases op with
    | append bytes => exact inv_append h hop
    | poll m =>
      have hlog : w.log.length ≤ _ := log_run (step w (.poll m)) ops
      exact (inv_poll h (Nat.le_trans hlog hsmall) hop).1

theorem length_readOutput (log : Bytes) (e : Entry) (n : ℕ) : (readOutput log e n).1.length ≤ n := by
  have hlog : ∀ k, (readLog log e k).1.length ≤ k := by
    intro k
    unfold readLog readData
    simp only
    split_ifs
    · exact List.length_take_le _ _
    · exact List.length_take_le _ _
  unfold readOutput
  simp only
  split_ifs with hnil hle
  · exact hlog n
  · exact List.length_take_le _ _
  · have := hlog (n - e.pendingOutput.length)
    rw [List.length_append]
    omega

end Smara.Desktop.Output
