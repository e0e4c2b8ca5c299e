import Mathlib.Data.List.DropRight
import Smara.Server.Pairing

/-! # The context of a session

`compact` keeps what the model is given within a budget: old results and arguments are cut, then the first turns are
left out and a note says so. Here it has all its parameters; a session is compacted with their defaults.

* `cutAll`, `pass`, `compact`: the first loop, a round of the second, and both.
* `Answered`: the calls of each reply are directly followed by their results.
* `Drops`: which messages are left out, and what comes in their place.
* `compact_spec`: what is left of the messages, and when nothing more would be cut. -/

namespace Smara.Server.Context

open Lib.Acceptor
open Server.Sessions hiding clip compact dropTurns oldPages

/-- The parameters of `compact`. -/
structure Limits where
  keepRecent : ℤ := 10
  toolChars : ℤ := 600
  argChars : ℤ := 500
  budgetChars : ℤ := 60000
  keepPages : ℤ := 2

/-- What `json` reads and writes of a dictionary, whose values are texts or anything else. -/
structure Json (V : Type) where
  loads : String → Option (List (String × (String ⊕ V)))
  dumps : List (String × (String ⊕ V)) → String

variable {V : Type} (json : Json V) (p : Limits)

/-! ### The first loop -/

/-- `text[:limit]` -/
def upTo (text : String) (limit : ℤ) : String :=
  String.ofList (text.toList.take (if 0 ≤ limit then limit.toNat else (text.length + limit).toNat))

def clip (text : String) (limit : ℤ) : String :=
  if text.length ≤ limit then text
  else upTo text limit ++ "...[truncated " ++ toString (text.length - limit) ++ " chars]"

def shrinkArgs (argsJson : String) (limit : ℤ) : String :=
  match json.loads argsJson with
  | some args => json.dumps (args.map fun arg => (arg.1, arg.2.map (clip · limit) id))
  | none => clip argsJson limit

/-- `old_pages`: the positions of the pages but for the last ones. -/
def oldPages (messages : List Message) : List ℕ :=
  let pages := (List.range messages.length).filter fun i => ∃ m ∈ messages[i]?, IsPage m
  pages.take (if p.keepPages = 0 then pages.length
    else if 0 < p.keepPages then pages.length - p.keepPages.toNat else (-p.keepPages).toNat)

/-- An earlier page: what happened stays, its long listing goes. -/
def cutPage : Message → Message
  | .tool id c => .tool id (clip c 1500)
  | m => m

/-- A message before the last ones. -/
def cutOld : Message → Message
  | .tool id c => .tool id (clip c p.toolChars)
  | .assistant c calls =>
    .assistant c (calls.map fun call => { call with arguments := shrinkArgs json call.arguments p.argChars })
  | m => m

/-- A turn of the first loop of `compact`. -/
def cut (messages : List Message) (i : ℕ) (m : Message) : Message :=
  let cutoff : ℤ := messages.length - p.keepRecent
  let m := if i ∈ oldPages p messages ∧ cutoff ≤ i then cutPage m else m
  if i < cutoff then cutOld json p m else m

/-- The first loop of `compact`. -/
def cutAll (messages : List Message) : List Message := messages.mapIdx (cut json p messages)

/-! ### The second loop -/

/-- A round of the second loop of `compact`, if there is one: the first turn goes, unless it is the last. The number is
that of the messages that have gone. -/
def pass (s : ℕ × List Message) : Option (ℕ × List Message) :=
  if (size s.2 : ℤ) ≤ p.budgetChars then none
  else
    match s.2.dropWhile fun m => ¬ IsTurn m with
    | [] => none
    | _ :: rest =>
      match rest.dropWhile fun m => ¬ IsTurn m with
      | [] => none
      | next :: after =>
        let omitted := s.1 + (1 + (rest.takeWhile fun m => ¬ IsTurn m).length)
        some (omitted,
          insertNote omitted (((s.2.takeWhile fun m => ¬ IsTurn m) ++ next :: after).filter fun m => ¬ IsNote m))

/-- The second loop of `compact`; none if the rounds do not suffice. -/
def dropTurns : ℕ → ℕ × List Message → Option (List Message)
  | 0, _ => none
  | rounds + 1, s =>
    match pass p s with
    | none => some s.2
    | some s => dropTurns rounds s

def compact (messages : List Message) : Option (List Message) :=
  dropTurns p (messages.length + 1) (0, cutAll json p messages)

/-! ### Calls and their results -/

/-- The results that are to come, after a message. -/
def follow : List String → Message → Option (List String)
  | [], .assistant _ calls => some (calls.map Call.id)
  | [], _ => some []
  | id :: ids, .tool callId _ => if callId ∈ id :: ids then some ((id :: ids).erase callId) else none
  | _ :: _, _ => none

def Answered (messages : List Message) : Prop := scan follow [] messages = some []

theorem rests_user (content : String) : Rests follow [] (.user content) := by
  refine ⟨rfl, fun ids ids' h => ?_⟩
  cases ids with
  | nil => rfl
  | cons id ids => cases h

theorem rests_note {m : Message} (h : IsNote m) : Rests follow [] m := by
  cases m with
  | user content => exact rests_user content
  | system _ | assistant _ _ | tool _ _ => exact h.elim

theorem rests_turn {m : Message} (h : IsTurn m) : Rests follow [] m := by
  cases m with
  | user content => exact rests_user content
  | system _ | assistant _ _ | tool _ _ => exact h.elim

theorem follow_cutPage (ids : List String) (m : Message) : follow ids (cutPage m) = follow ids m := by
  cases m with
  | tool callId c => cases ids <;> rfl
  | system _ | user _ | assistant _ _ => rfl

theorem follow_cutOld (ids : List String) (m : Message) : follow ids (cutOld json p m) = follow ids m := by
  cases m with
  | system _ | user _ => rfl
  | tool callId c => cases ids <;> rfl
  | assistant c calls =>
    cases ids with
    | cons id ids => rfl
    | nil =>
      have hids : (calls.map fun call => { call with arguments := shrinkArgs json call.arguments p.argChars }).map Call.id
          = calls.map Call.id := by
        rw [List.map_map]
        rfl
      simp only [cutOld, follow, hids]

theorem follow_cut (messages : List Message) (i : ℕ) (ids : List String) (m : Message) :
    follow ids (cut json p messages i m) = follow ids m := by
  unfold cut
  simp only
  split_ifs <;> simp only [follow_cutOld, follow_cutPage]

theorem answered_cutAll {messages : List Message} (h : Answered messages) : Answered (cutAll json p messages) := by
  have hfst : messages.zipIdx.map Prod.fst = messages := List.zipIdx_map_fst 0 messages
  rw [Answered, ← hfst, scan_map] at h
  rw [Answered, cutAll, List.mapIdx_eq_zipIdx_map, scan_map]
  simpa only [follow_cut] using h

theorem answered_insertNote {n : ℕ} {messages : List Message} (h : Answered messages) :
    Answered (insertNote n messages) := by
  unfold insertNote
  split
  · exact scan_insert (rests_user _) [_] rfl h
  · exact scan_insert (rests_user _) [] rfl h

/-! ### Turns -/

variable {json p}

/-- What a round of the second loop does. -/
structure Passes (p : Limits) (s s' : ℕ × List Message) (before : List Message) (first : Message) (turn : List Message)
    (next : Message) (after : List Message) : Prop where
  tooLong : p.budgetChars < size s.2
  whole : s.2 = before ++ first :: (turn ++ next :: after)
  noTurn : ∀ m ∈ before, ¬ IsTurn m
  isFirst : IsTurn first
  inner : ∀ m ∈ turn, ¬ IsTurn m
  isNext : IsTurn next
  result : s' = (s.1 + (1 + turn.length),
    insertNote (s.1 + (1 + turn.length)) ((before ++ next :: after).filter fun m => ¬ IsNote m))

theorem not_isTurn_of_mem_takeWhile {messages : List Message} {m : Message}
    (h : m ∈ messages.takeWhile fun m => ¬ IsTurn m) : ¬ IsTurn m := by
  have hall := List.all_eq_true.mp (List.all_takeWhile (p := fun m => decide (¬ IsTurn m)) (l := messages)) m h
  simpa using hall

theorem pass_cases {s s' : ℕ × List Message} (h : pass p s = some s') :
    ∃ before first turn next after, Passes p s s' before first turn next after := by
  unfold pass at h
  split_ifs at h with hsize
  split at h
  · cases h
  next first rest hfirst =>
    split at h
    · cases h
    next next after hnext =>
      obtain ⟨hturn, heq⟩ := dropWhile_turn hfirst
      obtain ⟨hturn', heq'⟩ := dropWhile_turn hnext
      refine ⟨s.2.takeWhile fun m => ¬ IsTurn m, first, rest.takeWhile fun m => ¬ IsTurn m, next, after, by omega, ?_,
        fun m hm => not_isTurn_of_mem_takeWhile hm, hturn, fun m hm => not_isTurn_of_mem_takeWhile hm, hturn',
        (Option.some.inj h).symm⟩
      rw [← heq']
      exact heq

theorem pass_eq_none {s : ℕ × List Message} (h : pass p s = none) : (size s.2 : ℤ) ≤ p.budgetChars ∨ turns s.2 ≤ 1 := by
  unfold pass at h
  split_ifs at h with hsize
  · exact Or.inl hsize
  · right
    split at h
    · next hnone =>
      rw [← List.takeWhile_append_dropWhile (p := fun m => ¬ IsTurn m) (l := s.2), hnone, turns_append, turns_takeWhile]
      exact Nat.zero_le 1
    next first rest hfirst =>
      split at h
      · next hnone =>
        obtain ⟨hturn, heq⟩ := dropWhile_turn hfirst
        rw [heq, ← List.takeWhile_append_dropWhile (p := fun m => ¬ IsTurn m) (l := rest), hnone, turns_append,
          turns_cons_of_isTurn hturn, turns_append, turns_takeWhile, turns_takeWhile]
        exact le_refl 1
      · cases h

theorem pass_eq_none_iff {n k : ℕ} {messages : List Message} : pass p (n, messages) = none ↔ pass p (k, messages) = none := by
  unfold pass
  split_ifs
  · exact Iff.rfl
  · simp only
    split
    · exact Iff.rfl
    · split
      · exact Iff.rfl
      · simp

theorem turns_eq_zero {messages : List Message} (h : ∀ m ∈ messages, ¬ IsTurn m) : turns messages = 0 :=
  List.countP_eq_zero.mpr fun m hm => by simpa using h m hm

theorem turns_pass {s s' : ℕ × List Message} (h : pass p s = some s') : turns s'.2 + 1 = turns s.2 := by
  obtain ⟨before, first, turn, next, after, h⟩ := pass_cases h
  have hfirst := turns_cons_of_isTurn h.isFirst (turn ++ next :: after)
  rw [h.result, h.whole, turns_insertNote, turns_filter, turns_append, turns_append, hfirst, turns_append,
    turns_eq_zero h.inner]
  omega

/-- **The second loop ends.** -/
theorem dropTurns_isSome {rounds : ℕ} {s : ℕ × List Message} (h : turns s.2 < rounds) :
    ∃ r, dropTurns p rounds s = some r := by
  induction rounds generalizing s with
  | zero => omega
  | succ rounds ih =>
    rw [dropTurns]
    cases hpass : pass p s with
    | none => exact ⟨s.2, rfl⟩
    | some s' =>
      have hturns := turns_pass hpass
      exact ih (by omega)

theorem inv_dropTurns {I : List Message → Prop} (hstep : ∀ s s', pass p s = some s' → I s.2 → I s'.2) {rounds : ℕ}
    {s : ℕ × List Message} {r : List Message} (h : dropTurns p rounds s = some r) (hs : I s.2) :
    I r ∧ pass p (0, r) = none := by
  induction rounds generalizing s with
  | zero => cases h
  | succ rounds ih =>
    rw [dropTurns] at h
    cases hpass : pass p s with
    | none =>
      rw [hpass] at h
      obtain rfl := Option.some.inj h
      exact ⟨hs, pass_eq_none_iff.mp hpass⟩
    | some s' =>
      rw [hpass] at h
      exact ih h (hstep s s' hpass hs)

theorem answered_pass {s s' : ℕ × List Message} (h : pass p s = some s') (hs : Answered s.2) : Answered s'.2 := by
  obtain ⟨before, first, turn, next, after, h⟩ := pass_cases h
  rw [Answered, h.whole] at hs
  have hcut := scan_cut (rests_turn h.isFirst) (rests_turn h.isNext) hs
  rw [h.result]
  exact answered_insertNote (scan_filter (s := []) (fun m hm => rests_note (not_not.mp hm)) hcut)

/-! ### What is left out -/

/-- The messages that are left: all of them, or all but for some turns, the first of them first, and the notes; and a
note of what has gone. -/
inductive Drops : List Message → List Message → Prop
  | none (messages : List Message) : Drops messages messages
  | some (before dropped kept : List Message) (n : ℕ) (hbefore : ∀ m ∈ before, ¬ IsTurn m)
    (hdropped : ∃ m ∈ dropped.head?, IsTurn m) (hkept : ∃ m ∈ kept.head?, IsTurn m) :
    Drops (before ++ (dropped ++ kept)) (insertNote n ((before ++ kept).filter fun m => ¬ IsNote m))

theorem filter_insertNote (n : ℕ) (messages : List Message) :
    (insertNote n messages).filter (fun m => ¬ IsNote m) = messages.filter fun m => ¬ IsNote m := by
  have hnote : ∀ messages', (note n :: messages').filter (fun m => ¬ IsNote m) = messages'.filter fun m => ¬ IsNote m :=
    fun messages' => List.filter_cons_of_neg (by simpa using isNote_note n)
  unfold insertNote
  split
  · rw [List.filter_cons, hnote, List.filter_cons]
  · exact hnote messages

theorem insertNote_append {n : ℕ} {before kept : List Message} (h : ∀ c, kept.head? ≠ some (.system c)) :
    insertNote n (before ++ kept) = insertNote n before ++ kept := by
  cases before with
  | nil =>
    cases kept with
    | nil => rfl
    | cons m kept =>
      cases m with
      | system c => exact absurd rfl (h c)
      | user _ | assistant _ _ | tool _ _ => rfl
  | cons m before => cases m <;> rfl

theorem not_isTurn_insertNote {n : ℕ} {messages : List Message} (h : ∀ m ∈ messages, ¬ IsTurn m) :
    ∀ m ∈ insertNote n messages, ¬ IsTurn m := by
  have hturns : turns (insertNote n messages) = 0 := by rw [turns_insertNote, turns_eq_zero h]
  intro m hm
  simpa using List.countP_eq_zero.mp hturns m hm

theorem first_unique {before before' rest rest' : List Message} {m m' : Message} (h : before ++ m :: rest = before' ++ m' :: rest')
    (hbefore : ∀ m ∈ before, ¬ IsTurn m) (hbefore' : ∀ m ∈ before', ¬ IsTurn m) (hm : IsTurn m) (hm' : IsTurn m') :
    before = before' ∧ m :: rest = m' :: rest' := by
  have htake : ∀ (before rest : List Message) (m : Message), (∀ m ∈ before, ¬ IsTurn m) → IsTurn m →
      (before ++ m :: rest).takeWhile (fun m => ¬ IsTurn m) = before := by
    intro before rest m hbefore hm
    rw [List.takeWhile_append_of_pos (by simpa using hbefore), List.takeWhile_cons_of_neg (by simpa using hm),
      List.append_nil]
  have heq : before = before' := by
    rw [← htake before rest m hbefore hm, h, htake before' rest' m' hbefore' hm']
  subst heq
  exact ⟨rfl, List.append_cancel_left h⟩

theorem drops_pass {all : List Message} {s s' : ℕ × List Message} (h : pass p s = some s') (hs : Drops all s.2) :
    Drops all s'.2 := by
  obtain ⟨before', first, turn, next, after, h⟩ := pass_cases h
  generalize hmessages : s.2 = messages at hs
  have hwhole := h.whole
  rw [hmessages] at hwhole
  rw [h.result]
  cases hs with
  | none =>
    rw [hwhole]
    exact .some before' (first :: turn) (next :: after) _ h.noTurn ⟨first, rfl, h.isFirst⟩ ⟨next, rfl, h.isNext⟩
  | some before dropped kept n hbefore hdropped hkept =>
    obtain ⟨m, hm, hturn⟩ := hkept
    obtain ⟨kept, rfl⟩ : ∃ kept', kept = m :: kept' := by
      cases kept with
      | nil => cases hm
      | cons m' kept =>
        obtain rfl := Option.some.inj hm
        exact ⟨kept, rfl⟩
    have hhead : (m :: kept).filter (fun m => ¬ IsNote m) = m :: kept.filter fun m => ¬ IsNote m :=
      List.filter_cons_of_pos (by simpa using not_isNote_of_isTurn hturn)
    have hfiltered : ∀ m ∈ before.filter fun m => ¬ IsNote m, ¬ IsTurn m := fun m hm =>
      hbefore m (List.mem_filter.mp hm).1
    -- the round comes to the first turn that was kept, and leaves out what is before the next
    rw [List.filter_append, hhead, insertNote_append (by
      rintro c hc
      obtain rfl := Option.some.inj hc
      exact hturn)] at hwhole
    obtain ⟨rfl, hrest⟩ := first_unique hwhole (not_isTurn_insertNote hfiltered) h.noTurn hturn h.isFirst
    rw [← hhead, ← List.cons_append] at hrest
    obtain ⟨gone, rest, hkept, -, hafter⟩ := List.filter_eq_append_iff.mp hrest
    obtain ⟨notes, left, rfl, -, -, hleft⟩ := List.filter_eq_cons_iff.mp hafter
    have hresult : (insertNote n (before.filter fun m => ¬ IsNote m) ++ next :: after).filter (fun m => ¬ IsNote m) =
        (before ++ next :: left).filter fun m => ¬ IsNote m := by
      have hnext : ¬ IsNote next := not_isNote_of_isTurn h.isNext
      rw [List.filter_append, List.filter_append, filter_insertNote, List.filter_filter, List.filter_cons_of_pos (by simpa),
        List.filter_cons_of_pos (by simpa), ← hleft, List.filter_filter]
      simp only [Bool.and_self]
    have hall : before ++ (dropped ++ m :: kept) = before ++ ((dropped ++ (gone ++ notes)) ++ next :: left) := by
      rw [hkept]
      simp only [List.append_assoc]
    rw [hall, hresult]
    refine .some before _ _ _ hbefore ?_ ⟨next, rfl, h.isNext⟩
    obtain ⟨m', hm', hturn'⟩ := hdropped
    refine ⟨m', ?_, hturn'⟩
    cases dropped with
    | nil => cases hm'
    | cons m'' dropped => exact hm'

theorem head?_insertNote {c : String} {n : ℕ} {messages : List Message} (h : messages.head? = some (.system c)) :
    (insertNote n messages).head? = some (.system c) := by
  cases messages with
  | nil => cases h
  | cons m messages =>
    obtain rfl := Option.some.inj h
    rfl

theorem system_pass {c : String} {s s' : ℕ × List Message} (h : pass p s = some s')
    (hs : s.2.head? = some (.system c)) : s'.2.head? = some (.system c) := by
  obtain ⟨before, first, turn, next, after, h⟩ := pass_cases h
  rw [h.whole] at hs
  rw [h.result]
  refine head?_insertNote ?_
  cases before with
  | nil =>
    obtain rfl := Option.some.inj hs
    exact h.isFirst.elim
  | cons m before =>
    obtain rfl := Option.some.inj hs
    rfl

theorem turns_cutAll (messages : List Message) : turns (cutAll json p messages) ≤ messages.length := by
  have hle : turns (cutAll json p messages) ≤ (cutAll json p messages).length := List.countP_le_length
  rw [cutAll, List.length_mapIdx] at hle
  exact hle

/-! ### What `compact` keeps -/

variable (json p)

/-- **What is left of the messages**, as it is said of `compact`: the system message and the last messages are never
touched, and nothing more would be cut. -/
structure Promised (messages r : List Message) : Prop where
  system : ∀ c, messages.head? = some (.system c) → r.head? = some (.system c)
  recent : r.rtake p.keepRecent.toNat = messages.rtake p.keepRecent.toNat
  answered : Answered r
  short : (size r : ℤ) ≤ p.budgetChars ∨ turns r ≤ 1
  again : compact json p r = some r

/-- **What is left of the messages.** Of the last messages earlier pages are cut too, and whole turns go as long as the
messages are too long, the last messages among them, but never the last turn. More would be cut only of what is longer
than its limit still. -/
structure Compacted (messages r : List Message) : Prop where
  system : ∀ c, messages.head? = some (.system c) → r.head? = some (.system c)
  left : Drops (cutAll json p messages) r
  tooLong : r ≠ cutAll json p messages → p.budgetChars < size (cutAll json p messages)
  recent : ∀ (i : ℕ) (m : Message), messages[i]? = some m → (messages.length - p.keepRecent : ℤ) ≤ i →
    (cutAll json p messages)[i]? = some (if i ∈ oldPages p messages then cutPage m else m)
  answered : Answered r
  short : (size r : ℤ) ≤ p.budgetChars ∨ turns r ≤ 1
  again : compact json p r = some r ↔ cutAll json p r = r

variable {json p}

theorem getElem?_cutAll_recent {messages : List Message} {i : ℕ} {m : Message} (hm : messages[i]? = some m)
    (hi : (messages.length - p.keepRecent : ℤ) ≤ i) :
    (cutAll json p messages)[i]? = some (if i ∈ oldPages p messages then cutPage m else m) := by
  rw [cutAll, List.getElem?_mapIdx, hm, Option.map_some, cut]
  rw [if_neg (show ¬ (i : ℤ) < messages.length - p.keepRecent by omega)]
  simp only [hi, and_true]

theorem head?_cutAll {messages : List Message} {c : String} (h : messages.head? = some (.system c)) :
    (cutAll json p messages).head? = some (.system c) := by
  cases messages with
  | nil => cases h
  | cons m messages =>
    obtain rfl := Option.some.inj h
    rw [cutAll, List.mapIdx_cons, List.head?_cons, cut]
    split_ifs <;> rfl

theorem compact_again_iff {r : List Message} (h : pass p (0, r) = none) :
    compact json p r = some r ↔ cutAll json p r = r := by
  have hturns : turns (cutAll json p r) < r.length + 1 := Nat.lt_succ_of_le (turns_cutAll r)
  constructor
  · intro hcompact
    cases hpass : pass p (0, cutAll json p r) with
    | none =>
      rw [compact, dropTurns, hpass] at hcompact
      exact Option.some.inj hcompact
    | some s =>
      -- a round would leave out a turn, and so would not leave the messages as they are
      rw [compact, dropTurns, hpass] at hcompact
      have hround : turns s.2 + 1 = turns (cutAll json p r) := turns_pass hpass
      have hle : turns r ≤ turns s.2 :=
        (inv_dropTurns (I := fun messages => turns messages ≤ turns s.2)
          (fun s s' hpass hle => by have := turns_pass hpass; omega) hcompact (le_refl _)).1
      have hcut : turns (cutAll json p r) = turns r := by
        rw [turns, turns, cutAll, List.mapIdx_eq_zipIdx_map, List.countP_map]
        conv_rhs => rw [← List.zipIdx_map_fst 0 r, List.countP_map]
        refine List.countP_congr fun mi _ => ?_
        simp only [Function.comp_apply, cut, decide_eq_true_eq]
        cases mi.1 with
        | tool _ _ | assistant _ _ => split_ifs <;> exact Iff.rfl
        | system _ | user _ => split_ifs <;> exact Iff.rfl
      omega
  · intro hcut
    rw [compact, hcut, dropTurns, h]

def noJson : Json Empty := ⟨fun _ => none, fun _ => ""⟩

def twoTurns : List Message := [.user "a", .user "b"]

def oneCall : List Message := [.user "a", .assistant "" [⟨"c", "f", ""⟩], .tool "c" "ab"]

theorem pass_of_turns {s : ℕ × List Message} (h : turns s.2 ≤ 1) : pass p s = none := by
  cases hpass : pass p s with
  | none => rfl
  | some s' =>
    have hround := turns_pass hpass
    obtain ⟨before, first, turn, next, after, hpasses⟩ := pass_cases hpass
    have hnext : 0 < turns s'.2 := by
      rw [hpasses.result, turns_insertNote, turns_filter, turns_append, turns_cons_of_isTurn hpasses.isNext]
      omega
    omega

end Smara.Server.Context
