import Smara.Lib.Utf8

/-! # Polling a process

`ProcessSupervisor.poll` gives a piece of the log of a process, from a cursor on, and the cursor behind it. The
cursor counts bytes and the piece is decoded by itself, so the pieces of the log of a finished process are the log
exactly when no cursor falls inside a unit of the decoding (`drain_eq_decode_iff`). -/

namespace Smara.Harness.Polling

open Lib.Utf8

inductive Status
  | running | completed | failed | cancelled | alreadyCompleted | timedOut | cancellationUncertain
  | interruptedUncertain
  deriving DecidableEq, Repr

/-- `cancellation_status` -/
inductive Cancellation
  | alreadyCompleted | confirmedCancelled | timedOut | cancellationUncertain
  deriving DecidableEq, Repr

/-- What `poll` reads and writes of the metadata of a process. -/
structure Metadata where
  status : Option Status
  exitCode : Option ℤ
  cancellation : Option Cancellation
  timedOut : Bool
  deriving DecidableEq, Repr

/-- The process, if the supervisor has it: what `proc.poll()` gives, whether the deadline is marked, and what
`proc.poll()` gives once it has been killed. -/
structure Process where
  code : Option ℤ
  expired : Bool
  codeKilled : Option ℤ

/-- What a call of `poll` meets. No one writes to the log of a finished process, so that it is the same each
time that the call reads it. -/
structure Entry where
  log : List UInt8
  metadata : Metadata
  process : Option Process

/-- What `poll` returns. -/
structure Answer where
  metadata : Metadata
  done : Bool
  output : List Char
  cursor : ℕ
  logSize : ℕ
  reconnectable : Bool
  deriving DecidableEq, Repr

/-- The statuses that a process ends with. -/
def Status.done : Status → Bool
  | completed | failed | cancelled | alreadyCompleted | timedOut => true
  | _ => false

def currentStatus (expired : Bool) (cancellation : Option Cancellation) (code : Option ℤ) : Status :=
  if expired then .timedOut
  else match cancellation with
    | some .alreadyCompleted => .alreadyCompleted
    | some .confirmedCancelled => .cancelled
    | some .cancellationUncertain => .cancellationUncertain
    | _ => match code with
      | none => .running
      | some code => if code = 0 then .completed else .failed

/-- `max(1,min(int(max_chars),16000))` -/
def limitOf (maxChars : ℤ) : ℕ := (max 1 (min maxChars 16000)).toNat

/-- `max(0,min(int(cursor),len(raw)))` -/
def cursorOf (raw : List UInt8) (cursor : ℤ) : ℕ := (max 0 (min cursor raw.length)).toNat

/-- `poll`: the answer, and the metadata it leaves -/
def poll (e : Entry) (cursor maxChars : ℤ) : Answer × Metadata :=
  let start := cursorOf e.log cursor
  let limit := limitOf maxChars
  let chunk := decode ((e.log.drop start).take limit)
  let next := min e.log.length (start + limit)
  match e.process with
  | none =>
    let stored := e.metadata.status.getD .interruptedUncertain
    let status := if stored = .running then .interruptedUncertain else stored
    (⟨{ e.metadata with status := some status }, status.done, chunk, next, e.log.length, false⟩, e.metadata)
  | some p =>
    let killed := p.expired && p.code.isNone
    let code := if killed then p.codeKilled else p.code
    let status := currentStatus p.expired e.metadata.cancellation code
    let saved : Metadata :=
      { e.metadata with status := some status, exitCode := code, timedOut := killed || e.metadata.timedOut }
    (⟨saved, code.isSome || status.done, chunk, next, e.log.length, true⟩, saved)

theorem poll_output (e : Entry) (cursor maxChars : ℤ) : (poll e cursor maxChars).1.output =
    decode ((e.log.drop (cursorOf e.log cursor)).take (limitOf maxChars)) := by
  unfold poll
  cases e.process <;> rfl

theorem poll_cursor (e : Entry) (cursor maxChars : ℤ) : (poll e cursor maxChars).1.cursor =
    min e.log.length (cursorOf e.log cursor + limitOf maxChars) := by
  unfold poll
  cases e.process <;> rfl

theorem limitOf_pos (maxChars : ℤ) : 0 < limitOf maxChars := by
  unfold limitOf
  omega

theorem cursorOf_natCast {raw : List UInt8} {cursor : ℕ} (h : cursor ≤ raw.length) :
    cursorOf raw cursor = cursor := by
  unfold cursorOf
  omega

/-! ## Reading the whole log -/

/-- A call of `poll` on a process whose log is `raw`. -/
structure Call (raw : List UInt8) where
  entry : Entry
  log_eq : entry.log = raw
  maxChars : ℤ

variable {raw : List UInt8}

theorem Call.cursor_eq (call : Call raw) {cursor : ℕ} (h : cursor ≤ raw.length) :
    (poll call.entry cursor call.maxChars).1.cursor = min raw.length (cursor + limitOf call.maxChars) := by
  rw [poll_cursor, call.log_eq, cursorOf_natCast h]

theorem Call.output_eq (call : Call raw) {cursor : ℕ} (h : cursor ≤ raw.length) :
    (poll call.entry cursor call.maxChars).1.output = decode ((raw.drop cursor).take (limitOf call.maxChars)) := by
  rw [poll_output, call.log_eq, cursorOf_natCast h]

/-- The outputs of the calls from the `i`th on, each with the cursor that the one before has returned, until the
cursor is the size of the log. -/
def drain (calls : ℕ → Call raw) (i cursor : ℕ) : List Char :=
  if _h : cursor < raw.length then
    let answer := (poll (calls i).entry cursor (calls i).maxChars).1
    answer.output ++ drain calls (i + 1) answer.cursor
  else []
termination_by raw.length - cursor
decreasing_by
  have := limitOf_pos (calls i).maxChars
  rw [(calls i).cursor_eq _h.le]
  omega

/-- The cursor that the `n`th call passes, as far as the log goes. -/
def cursorAt (calls : ℕ → Call raw) (n : ℕ) : ℕ :=
  min raw.length (∑ i ∈ Finset.range n, limitOf (calls i).maxChars)

theorem cursorAt_le (calls : ℕ → Call raw) (n : ℕ) : cursorAt calls n ≤ raw.length := Nat.min_le_left _ _

theorem cursorAt_succ (calls : ℕ → Call raw) (n : ℕ) :
    cursorAt calls (n + 1) = min raw.length (cursorAt calls n + limitOf (calls n).maxChars) := by
  unfold cursorAt
  rw [Finset.sum_range_succ]
  omega

theorem cursorAt_mono (calls : ℕ → Call raw) {m n : ℕ} (h : m ≤ n) : cursorAt calls m ≤ cursorAt calls n := by
  induction h with
  | refl => rfl
  | step h ih =>
    have hsucc := cursorAt_succ calls
    have hle := cursorAt_le calls
    exact ih.trans (by rw [hsucc]; exact le_min (hle _) (Nat.le_add_right _ _))

theorem drain_step (calls : ℕ → Call raw) {i : ℕ} (h : cursorAt calls i < raw.length) :
    ∃ chunk rest, raw.drop (cursorAt calls i) = chunk ++ rest ∧ rest = raw.drop (cursorAt calls (i + 1)) ∧
      chunk.length = cursorAt calls (i + 1) - cursorAt calls i ∧
      drain calls i (cursorAt calls i) = decode chunk ++ drain calls (i + 1) (cursorAt calls (i + 1)) := by
  refine ⟨(raw.drop (cursorAt calls i)).take (limitOf (calls i).maxChars),
    (raw.drop (cursorAt calls i)).drop (limitOf (calls i).maxChars), (List.take_append_drop _ _).symm, ?_, ?_, ?_⟩
  · rw [cursorAt_succ, List.drop_drop]
    by_cases hend : cursorAt calls i + limitOf (calls i).maxChars ≤ raw.length
    · rw [Nat.min_eq_right hend]
    · rw [Nat.min_eq_left (by omega), List.drop_eq_nil_of_le (by omega), List.drop_length]
  · rw [cursorAt_succ, List.length_take, List.length_drop]
    omega
  · rw [drain, dif_pos h]
    simp only [(calls i).cursor_eq h.le, (calls i).output_eq h.le, cursorAt_succ]

theorem length_le_drain (calls : ℕ → Call raw) (i : ℕ) :
    (decode (raw.drop (cursorAt calls i))).length ≤ (drain calls i (cursorAt calls i)).length := by
  induction hn : raw.length - cursorAt calls i using Nat.strongRecOn generalizing i with
  | _ n ih =>
    by_cases h : cursorAt calls i < raw.length
    · obtain ⟨chunk, rest, hsplit, hrest, -, hdrain⟩ := drain_step calls h
      have hpos := limitOf_pos (calls i).maxChars
      have hnext := ih (raw.length - cursorAt calls (i + 1)) (by rw [cursorAt_succ]; omega) (i + 1) rfl
      have happend := length_decode_append_le chunk rest
      rw [← hrest] at hnext
      rw [hsplit, hdrain, List.length_append]
      omega
    · rw [List.drop_eq_nil_of_le (by omega)]
      simp

theorem drain_eq_iff (calls : ℕ → Call raw) (i : ℕ) :
    drain calls i (cursorAt calls i) = decode (raw.drop (cursorAt calls i)) ↔
      ∀ n, i ≤ n → Boundary (raw.drop (cursorAt calls i)) (cursorAt calls n - cursorAt calls i) := by
  induction hn : raw.length - cursorAt calls i using Nat.strongRecOn generalizing i with
  | _ n ih =>
    by_cases h : cursorAt calls i < raw.length
    · obtain ⟨chunk, rest, hsplit, hrest, hlength, hdrain⟩ := drain_step calls h
      have hpos := limitOf_pos (calls i).maxChars
      have hih := ih (raw.length - cursorAt calls (i + 1)) (by rw [cursorAt_succ]; omega) (i + 1) rfl
      have hmono : cursorAt calls i ≤ cursorAt calls (i + 1) := cursorAt_mono calls (Nat.le_succ i)
      rw [← hrest] at hih
      rw [hsplit, hdrain]
      -- the boundaries are the one behind the chunk and those of the rest
      have hbehind : Boundary (chunk ++ rest) chunk.length → ∀ m, i + 1 ≤ m →
          (Boundary (chunk ++ rest) (cursorAt calls m - cursorAt calls i) ↔
            Boundary rest (cursorAt calls m - cursorAt calls (i + 1))) := by
        intro hcut m hm
        have := cursorAt_mono calls hm
        rw [show cursorAt calls m - cursorAt calls i =
          chunk.length + (cursorAt calls m - cursorAt calls (i + 1)) by omega, boundary_add hcut, List.drop_left]
      constructor
      · intro heq m hm
        have hcut : Boundary (chunk ++ rest) chunk.length := by
          by_contra hno
          have hlt := length_decode_append_lt hno
          have hle := length_le_drain calls (i + 1)
          rw [← hrest] at hle
          rw [← heq, List.length_append] at hlt
          omega
        rw [decode_append hcut, List.append_cancel_left_eq] at heq
        rcases Nat.lt_or_ge i m with hlt | hge
        · exact (hbehind hcut m hlt).mpr (hih.mp heq m hlt)
        · obtain rfl := Nat.le_antisymm hge hm
          rw [Nat.sub_self]
          exact .zero
      · intro hall
        have hcut : Boundary (chunk ++ rest) chunk.length := by
          rw [hlength]
          exact hall (i + 1) (Nat.le_succ i)
        rw [decode_append hcut, List.append_cancel_left_eq]
        exact hih.mpr fun m hm => (hbehind hcut m hm).mp (hall m (by omega))
    · rw [drain, dif_neg h, List.drop_eq_nil_of_le (by omega)]
      refine iff_of_true rfl fun m hm => ?_
      have := cursorAt_mono calls hm
      have := cursorAt_le calls m
      rw [show cursorAt calls m - cursorAt calls i = 0 by omega]
      exact .zero

/-- **Polling.** The outputs of the calls, each with the cursor that the one before has returned, are the decoded
log exactly when every cursor lies between two units of the decoding. -/
theorem drain_eq_decode_iff (calls : ℕ → Call raw) :
    drain calls 0 0 = decode raw ↔ ∀ n, Boundary raw (cursorAt calls n) := by
  have h := drain_eq_iff calls 0
  have hzero : cursorAt calls 0 = 0 := by simp [cursorAt]
  simpa [hzero] using h

/-- A log of one character of two bytes, read byte by byte. -/
theorem drain_inside : ¬ ∀ (raw : List UInt8) (calls : ℕ → Call raw),
    (∀ i, 1 ≤ (calls i).maxChars ∧ (calls i).maxChars ≤ 16000) → drain calls 0 0 = decode raw := by
  intro h
  let entry : Entry := ⟨[0xC3, 0xA9], ⟨some .completed, some 0, none, false⟩, none⟩
  have := h [0xC3, 0xA9] (fun _ => ⟨entry, rfl, 1⟩) fun _ => ⟨le_rfl, by decide⟩
  revert this
  decide_cbv

end Smara.Harness.Polling
