import Mathlib.Data.List.Infix
import Smara.Lib.Chronicle
import Smara.Lib.PyText

/-! # Chunks of a streamed answer

A chunk may be new text, the whole text so far, or the end of it once more. `append_stream_delta` keeps what is new.

* `appendStreamDelta`: one chunk.
* `stream`: the fold over the chunks.
* `Genuine`, `Snapshots`: the sequences of new texts, and of whole texts.
* `faithful_iff`: no text is lost exactly if no chunk of a genuine sequence is the beginning of what came before. -/

namespace Smara.Provider.Streaming

open Lib.Chronicle Lib.Letters Lib.PyText

abbrev Text := List Char

variable {current chunk c t : Text} {chunks cs : List Text}

/-! ### One chunk -/

def overlapBoundary (current chunk : Text) (overlap : ℕ) : Bool :=
  let suffix := chunk.drop overlap
  let left := if overlap < current.length then current.getD (current.length - overlap - 1) ' ' else ' '
  let last := chunk.getD (overlap - 1) ' '
  2 ≤ overlap && (isSpace last || suffix.head?.any isSpace || isSpace left || ".,!?;:)]\x7d".toList.contains last)

def singleTokenOverlap (chunk : Text) (overlap : ℕ) : Bool :=
  overlap = 1 && (chunk.drop overlap).head?.any isSpace

/-- The loop over the overlaps: the longest one decides. -/
def joinFrom (current chunk : Text) : ℕ → Text × Text
  | 0 => (current ++ chunk, chunk)
  | k + 1 =>
    if chunk.take (k + 1) <:+ current then
      let suffix := chunk.drop (k + 1)
      if overlapBoundary current chunk (k + 1) ∨ singleTokenOverlap chunk (k + 1) then (current ++ suffix, suffix)
      else (current ++ chunk, chunk)
    else joinFrom current chunk k

def appendStreamDelta (current chunk : Text) : Text × Text :=
  if chunk = [] then (current, [])
  else if current = [] then (chunk, chunk)
  else if chunk = current ∨ chunk <+: current then (current, [])
  else if current <+: chunk then (chunk, chunk.drop current.length)
  else joinFrom current chunk (min current.length chunk.length)

theorem joinFrom_eq (k : ℕ) : (joinFrom current chunk k).1 = current ++ (joinFrom current chunk k).2 := by
  induction k with
  | zero => rfl
  | succ k ih =>
    unfold joinFrom
    split_ifs
    · rfl
    · rfl
    · exact ih

theorem appendStreamDelta_eq (current chunk : Text) :
    (appendStreamDelta current chunk).1 = current ++ (appendStreamDelta current chunk).2 := by
  unfold appendStreamDelta
  split_ifs with hchunk hcurrent hprefix hextends
  · exact (List.append_nil _).symm
  · rw [hcurrent]
    rfl
  · exact (List.append_nil _).symm
  · exact (List.prefix_iff_eq_append.mp hextends).symm
  · exact joinFrom_eq _

/-- No end of the text so far is the beginning of the chunk. -/
def Apart (current chunk : Text) : Prop := ∀ s, s ≠ [] → s <:+ current → ¬ s <+: chunk

theorem joinFrom_of_apart (h : Apart current chunk) (k : ℕ) (hk : k ≤ chunk.length) :
    joinFrom current chunk k = (current ++ chunk, chunk) := by
  induction k with
  | zero => rfl
  | succ k ih =>
    have hne : chunk.take (k + 1) ≠ [] := by
      intro hnil
      have hlength := congrArg List.length hnil
      rw [List.length_take, List.length_nil] at hlength
      omega
    unfold joinFrom
    rw [if_neg fun hs => h _ hne hs (List.take_prefix _ _)]
    exact ih (by omega)

/-- **A genuine delta** is appended, unless the text so far begins with it. -/
theorem appendStreamDelta_of_apart (h : Apart current chunk) :
    appendStreamDelta current chunk = if chunk <+: current then (current, []) else (current ++ chunk, chunk) := by
  unfold appendStreamDelta
  by_cases hchunk : chunk = []
  · rw [if_pos hchunk, if_pos (hchunk ▸ List.nil_prefix)]
  rw [if_neg hchunk]
  by_cases hcurrent : current = []
  · subst hcurrent
    rw [if_pos rfl, if_neg fun hp => hchunk (List.prefix_nil.mp hp), List.nil_append]
  rw [if_neg hcurrent]
  by_cases hprefix : chunk <+: current
  · rw [if_pos (Or.inr hprefix), if_pos hprefix]
  have hextends : ¬ current <+: chunk := h current hcurrent (List.suffix_refl _)
  have hsame : ¬ (chunk = current ∨ chunk <+: current) := by
    rintro (rfl | hp)
    · exact hprefix (List.prefix_refl _)
    · exact hprefix hp
  rw [if_neg hsame, if_neg hextends, if_neg hprefix]
  exact joinFrom_of_apart h _ (Nat.min_le_right _ _)

/-- **A snapshot** replaces the text that it extends. -/
theorem appendStreamDelta_of_prefix (h : current <+: chunk) : (appendStreamDelta current chunk).1 = chunk := by
  unfold appendStreamDelta
  split_ifs with hchunk hcurrent hprefix
  · exact (List.prefix_nil.mp (hchunk ▸ h)).trans hchunk.symm
  · rfl
  · rcases hprefix with heq | hprefix
    · exact heq.symm
    · exact h.eq_of_length_le hprefix.length_le
  · rfl

/-! ### Sequences of chunks -/

/-- The text so far, and the deltas that were passed on. -/
structure Stream where
  text : Text := []
  deltas : List Text := []

def Stream.next (s : Stream) (chunk : Text) : Stream where
  text := (appendStreamDelta s.text chunk).1
  deltas := s.deltas ++ [(appendStreamDelta s.text chunk).2]

def stream (chunks : List Text) : Stream := chunks.foldl Stream.next {}

theorem stream_snoc (cs : List Text) (c : Text) : stream (cs ++ [c]) = (stream cs).next c := by
  simp [stream]

theorem text_stream (chunks : List Text) : (stream chunks).text = (stream chunks).deltas.flatten := by
  induction chunks using List.reverseRecOn with
  | nil => rfl
  | append_singleton cs c ih =>
    rw [stream_snoc]
    show (appendStreamDelta (stream cs).text c).1 =
      ((stream cs).deltas ++ [(appendStreamDelta (stream cs).text c).2]).flatten
    rw [appendStreamDelta_eq, List.flatten_append, List.flatten_singleton, ← ih]

/-- **Every non-empty chunk is a genuine delta**: no end of the text so far is its beginning. -/
def Genuine (chunks : List Text) : Prop := Lawful (fun pre c => c ≠ [] → Apart (stream pre).text c) chunks

/-- **Every chunk is a snapshot**: the one before it is its beginning. -/
def Snapshots (chunks : List Text) : Prop := Lawful (fun pre c => pre.getLastD [] <+: c) chunks

/-- No chunk is the beginning of what came before it. -/
def Fresh (chunks : List Text) : Prop := Lawful (fun pre c => c ≠ [] → ¬ c <+: pre.flatten) chunks

theorem apart_nil : Apart t [] := fun _ hs _ hp => hs (List.prefix_nil.mp hp)

/-- **What becomes of genuine deltas**: all of them are there, or one was dropped and the text is shorter. -/
theorem genuine_cases (h : Genuine chunks) : (Fresh chunks ∧ (stream chunks).text = chunks.flatten) ∨
    (¬ Fresh chunks ∧ (stream chunks).text.length < chunks.flatten.length) := by
  induction chunks using List.reverseRecOn with
  | nil => exact Or.inl ⟨lawful_nil, rfl⟩
  | append_singleton cs c ih =>
    obtain ⟨hcs, happart⟩ := lawful_snoc.mp h
    have hapart : Apart (stream cs).text c := by
      by_cases hc : c = []
      · exact hc ▸ apart_nil
      · exact happart hc
    have hnext : (stream (cs ++ [c])).text = (appendStreamDelta (stream cs).text c).1 := by
      rw [stream_snoc]
      rfl
    rw [hnext, appendStreamDelta_of_apart hapart, Fresh, lawful_snoc, List.flatten_append, List.flatten_singleton,
      List.length_append]
    rcases ih hcs with ⟨hfresh, htext⟩ | ⟨hfresh, hlt⟩
    · rw [htext]
      by_cases hc : c = []
      · subst hc
        exact Or.inl ⟨⟨hfresh, fun hne => absurd rfl hne⟩, by rw [if_pos List.nil_prefix, List.append_nil]⟩
      · by_cases hp : c <+: cs.flatten
        · have hpos := List.length_pos_of_ne_nil hc
          rw [if_pos hp]
          refine Or.inr ⟨fun hboth => hboth.2 hc hp, ?_⟩
          show cs.flatten.length < cs.flatten.length + c.length
          omega
        · rw [if_neg hp]
          exact Or.inl ⟨⟨hfresh, fun _ => hp⟩, rfl⟩
    · refine Or.inr ⟨fun hboth => hfresh hboth.1, ?_⟩
      split_ifs
      · show (stream cs).text.length < _
        omega
      · show ((stream cs).text ++ c).length < _
        rw [List.length_append]
        omega

theorem text_of_snapshots (h : Snapshots chunks) : (stream chunks).text = chunks.getLastD [] := by
  induction chunks using List.reverseRecOn with
  | nil => rfl
  | append_singleton cs c ih =>
    obtain ⟨hcs, hlast⟩ := lawful_snoc.mp h
    rw [← ih hcs] at hlast
    rw [stream_snoc, List.getLastD_concat]
    exact appendStreamDelta_of_prefix hlast

/-- **No text is lost**: the text is the deltas; of genuine deltas it is all of them, of snapshots the last. -/
structure Faithful (chunks : List Text) : Prop where
  text : (stream chunks).text = (stream chunks).deltas.flatten
  genuine : Genuine chunks → (stream chunks).text = chunks.flatten
  snapshots : Snapshots chunks → (stream chunks).text = chunks.getLastD []

/-- **Exactly the fresh sequences of genuine deltas lose nothing**, and all other sequences. -/
theorem faithful_iff (chunks : List Text) : Faithful chunks ↔ (Genuine chunks → Fresh chunks) := by
  constructor
  · intro h hgenuine
    rcases genuine_cases hgenuine with ⟨hfresh, -⟩ | ⟨-, hlt⟩
    · exact hfresh
    · rw [h.genuine hgenuine] at hlt
      exact absurd hlt (lt_irrefl _)
  · intro h
    refine ⟨text_stream chunks, fun hgenuine => ?_, text_of_snapshots⟩
    rcases genuine_cases hgenuine with ⟨-, htext⟩ | ⟨hfresh, -⟩
    · exact htext
    · exact absurd (h hgenuine) hfresh

theorem apart_iff : Apart current chunk ↔ ∀ s ∈ current.tails, s ≠ [] → ¬ s <+: chunk := by
  simp only [Apart, List.mem_tails]
  exact forall_congr' fun s => forall_comm

/-- The letter with which the answer begins is lost when it comes again. -/
theorem letter_lost : ¬ ∀ chunks, Faithful chunks := by
  intro h
  have hgenuine : Genuine ["Hi ".toList, "H".toList] := by
    refine (lawful_snoc (l := ["Hi ".toList])).mpr ⟨(lawful_snoc (l := [])).mpr ⟨lawful_nil, ?_⟩, ?_⟩
    · exact fun _ => apart_iff.mpr (by decide)
    · exact fun _ => apart_iff.mpr (by decide)
  exact absurd ((h _).genuine hgenuine) (by decide)

end Smara.Provider.Streaming
