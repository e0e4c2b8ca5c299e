import Smara.Lib.Acceptor
import Smara.Lib.Machine
import Smara.Server.Sessions

/-! # Calls and their results

Providers take a list of messages only if the calls of each reply are followed by their results, and by nothing else.

* `Paired`: such a list; `awaits`: the results that are to come, as the list is read.
* `open_compact`: what `compact` leaves is paired.
* `Fresh`: no call is made for the third time in a run.
* `paired_of_fresh`: in a run of such steps every list that the model is given is paired. -/

namespace Smara.Server.Sessions

open Lib.Acceptor Lib.Machine

/-- A message that is neither a result nor a reply with calls. -/
def IsPlain : Message → Prop
  | .system _ | .user _ => True
  | .assistant _ calls => calls = []
  | .tool _ _ => False

/-- **A list that providers take.** The calls of each reply have ids of their own, and their results follow, one for
each call and in their order. -/
inductive Paired : List Message → Prop
  | nil : Paired []
  | plain {m : Message} {messages : List Message} (hm : IsPlain m) (h : Paired messages) : Paired (m :: messages)
  | reply {content : String} {calls : List Call} {results : List (String × String)} {messages : List Message}
    (hids : (calls.map Call.id).Nodup) (hresults : results.map Prod.fst = calls.map Call.id) (h : Paired messages) :
    Paired (.assistant content calls :: (results.map (fun r => .tool r.1 r.2) ++ messages))

/-- The results that are to come, after a message. -/
def awaits : List String → Message → Option (List String)
  | [], .assistant _ calls => if (calls.map Call.id).Nodup then some (calls.map Call.id) else none
  | [], .tool _ _ => none
  | [], .system _ | [], .user _ => some []
  | id :: ids, .tool callId _ => if callId = id then some ids else none
  | _ :: _, _ => none

def Open (ids : List String) (messages : List Message) : Prop := scan awaits [] messages = some ids

/-! ### Reading a list -/

theorem awaits_plain {m : Message} (hm : IsPlain m) : awaits [] m = some [] := by
  cases m with
  | system _ | user _ => rfl
  | assistant content calls =>
    obtain rfl : calls = [] := hm
    rfl
  | tool _ _ => exact hm.elim

theorem scan_results (results : List (String × String)) (ids : List String) (messages : List Message) :
    scan awaits (results.map Prod.fst ++ ids) (results.map (fun r => .tool r.1 r.2) ++ messages) =
      scan awaits ids messages := by
  induction results with
  | nil => rfl
  | cons r results ih =>
    rw [List.map_cons, List.map_cons, List.cons_append, List.cons_append, scan, awaits, if_pos rfl]
    exact ih

theorem results_of_scan {ids : List String} {messages : List Message} (h : scan awaits ids messages = some []) :
    ∃ (results : List (String × String)) (rest : List Message), results.map Prod.fst = ids ∧
      messages = results.map (fun r => .tool r.1 r.2) ++ rest ∧ scan awaits [] rest = some [] := by
  induction ids generalizing messages with
  | nil => exact ⟨[], messages, rfl, rfl, h⟩
  | cons id ids ih =>
    cases messages with
    | nil => cases h
    | cons m messages =>
      rw [scan, Option.bind_eq_some_iff] at h
      obtain ⟨ids', hstep, h⟩ := h
      cases m with
      | tool callId content =>
        rw [awaits] at hstep
        split_ifs at hstep with hid
        obtain rfl := Option.some.inj hstep
        obtain ⟨results, rest, hids, rfl, hrest⟩ := ih h
        exact ⟨(callId, content) :: results, rest, by rw [List.map_cons, hids, hid], rfl, hrest⟩
      | system _ | user _ | assistant _ _ => cases hstep

/-- **A list is paired** if all results have come at its end, and none that was not awaited. -/
theorem paired_iff {messages : List Message} : Paired messages ↔ Open [] messages := by
  constructor
  · intro h
    induction h with
    | nil => rfl
    | plain hm _ ih =>
      rw [Open, scan, awaits_plain hm]
      exact ih
    | @reply content calls results messages hids hresults _ ih =>
      rw [Open, scan, awaits, if_pos hids, Option.bind_some, ← hresults, ← List.append_nil (results.map Prod.fst),
        scan_results]
      exact ih
  · intro h
    -- the messages are read one after another, or a reply together with its results
    generalize hn : messages.length = n
    induction n using Nat.strongRecOn generalizing messages with
    | ind n ih =>
      cases messages with
      | nil => exact .nil
      | cons m messages =>
        rw [Open, scan, Option.bind_eq_some_iff] at h
        obtain ⟨ids, hstep, h⟩ := h
        have hplain : IsPlain m → ids = [] → Paired (m :: messages) := by
          rintro hm rfl
          exact .plain hm (ih messages.length (by rw [← hn]; simp) h rfl)
        cases m with
        | system _ | user _ => exact hplain trivial (Option.some.inj hstep).symm
        | tool _ _ => cases hstep
        | assistant content calls =>
          rw [awaits] at hstep
          split_ifs at hstep with hids
          obtain ⟨results, rest, hresults, rfl, hrest⟩ := results_of_scan h
          refine .reply hids (hresults.trans (Option.some.inj hstep).symm) (ih rest.length ?_ hrest rfl)
          rw [← hn, List.length_cons, List.length_append]
          omega

theorem Open.append {ids : List String} {messages : List Message} {m : Message} {ids' : List String}
    (h : Open ids messages) (hm : awaits ids m = some ids') : Open ids' (messages ++ [m]) := by
  rw [Open, scan_append, h, Option.bind_some, scan_singleton]
  exact hm

theorem Open.tool {id : String} {ids : List String} {messages : List Message} (h : Open (id :: ids) messages)
    (content : String) : Open ids (messages ++ [.tool id content]) := h.append (if_pos rfl)

theorem Open.user {messages : List Message} (h : Open [] messages) (content : String) :
    Open [] (messages ++ [.user content]) := h.append rfl

/-! ### Compaction -/

theorem rests_user (content : String) : Rests awaits [] (.user content) := by
  refine ⟨rfl, fun ids ids' h => ?_⟩
  cases ids with
  | nil => rfl
  | cons id ids => cases h

theorem rests_note {m : Message} (h : IsNote m) : Rests awaits [] m := by
  cases m with
  | user content => exact rests_user content
  | system _ | assistant _ _ | tool _ _ => exact h.elim

theorem rests_turn {m : Message} (h : IsTurn m) : Rests awaits [] m := by
  cases m with
  | user content => exact rests_user content
  | system _ | assistant _ _ | tool _ _ => exact h.elim

theorem awaits_shrink (host : Host) (old old' : Bool) (ids : List String) (m : Message) :
    awaits ids (shrink host old (clipPage old' m)) = awaits ids m := by
  cases m with
  | system _ | user _ => rfl
  | tool callId content =>
    cases ids with
    | nil => rfl
    | cons id ids => rfl
  | assistant content calls =>
    cases ids with
    | cons id ids => rfl
    | nil =>
      have hids : ((if old then calls.map fun c => { c with arguments := host.shrinkArgs c.arguments 500 }
          else calls).map Call.id) = calls.map Call.id := by
        split_ifs
        · rw [List.map_map]
          rfl
        · rfl
      simp only [shrink, clipPage, awaits, hids]

theorem open_shrinkAll (host : Host) {ids : List String} {messages : List Message} (h : Open ids messages) :
    Open ids (shrinkAll host messages) := by
  have hfst : messages.zipIdx.map Prod.fst = messages := List.zipIdx_map_fst 0 messages
  rw [Open, ← hfst, scan_map] at h
  rw [Open, shrinkAll, List.mapIdx_eq_zipIdx_map, scan_map]
  simpa only [awaits_shrink] using h

theorem dropWhile_turn {messages rest : List Message} {m : Message}
    (h : messages.dropWhile (fun m => ¬ IsTurn m) = m :: rest) :
    IsTurn m ∧ messages = messages.takeWhile (fun m => ¬ IsTurn m) ++ m :: rest := by
  have hhead := List.head_dropWhile_not (fun m => decide (¬ IsTurn m)) (l := messages) (by rw [h]; simp)
  simp only [h, List.head_cons] at hhead
  refine ⟨by simpa using hhead, ?_⟩
  rw [← h, List.takeWhile_append_dropWhile]

theorem open_insertNote {n : ℕ} {ids : List String} {messages : List Message} (h : Open ids messages) :
    Open ids (insertNote n messages) := by
  unfold insertNote
  split
  · exact scan_insert (rests_user _) [_] rfl h
  · exact scan_insert (rests_user _) [] rfl h

theorem open_dropTurns (fuel omitted : ℕ) {messages : List Message} (h : Open [] messages) :
    Open [] (dropTurns fuel omitted messages) := by
  induction fuel generalizing omitted messages with
  | zero => exact h
  | succ fuel ih =>
    unfold dropTurns
    split_ifs
    · exact h
    · simp only
      split
      · exact h
      · next first rest hfirst =>
        split
        · exact h
        · next next after hnext =>
          obtain ⟨hturn, heq⟩ := dropWhile_turn hfirst
          obtain ⟨hturn', heq'⟩ := dropWhile_turn hnext
          rw [heq, heq'] at h
          have hcut := scan_cut (rests_turn hturn) (rests_turn hturn') h
          refine ih _ (open_insertNote (scan_filter (s := []) (fun m hm => ?_) hcut))
          exact rests_note (not_not.mp hm)

/-- **What `compact` leaves** is paired. -/
theorem open_compact (host : Host) {messages : List Message} (h : Open [] messages) : Open [] (compact host messages) :=
  open_dropTurns _ _ (open_shrinkAll host h)

def turns (messages : List Message) : ℕ := messages.countP fun m => IsTurn m

theorem isNote_note (n : ℕ) : IsNote (note n) := by
  have hnote : "[Earlier conversation omitted to save space: " =
      "[Earlier conversation omitted" ++ " to save space: " := by decide
  rw [note, hnote]
  dsimp only [IsNote]
  simp only [String.toList_append, List.append_assoc]
  exact List.prefix_append _ _

theorem not_isTurn_note (n : ℕ) : ¬ IsTurn (note n) := not_not.mpr (isNote_note n)

theorem not_isNote_of_isTurn {m : Message} (h : IsTurn m) : ¬ IsNote m := by
  cases m with
  | user content => exact h
  | system _ | assistant _ _ | tool _ _ => exact h.elim

theorem turns_append (messages messages' : List Message) : turns (messages ++ messages') =
    turns messages + turns messages' := List.countP_append

theorem turns_cons_of_isTurn {m : Message} (h : IsTurn m) (messages : List Message) :
    turns (m :: messages) = turns messages + 1 := List.countP_cons_of_pos (by simpa using h)

theorem turns_takeWhile (messages : List Message) : turns (messages.takeWhile fun m => ¬ IsTurn m) = 0 := by
  refine List.countP_eq_zero.mpr fun m hm => ?_
  have hall := List.all_eq_true.mp (List.all_takeWhile (p := fun m => decide (¬ IsTurn m)) (l := messages)) m hm
  simpa using hall

theorem turns_insertNote (n : ℕ) (messages : List Message) : turns (insertNote n messages) = turns messages := by
  have hnote : ∀ messages', turns (note n :: messages') = turns messages' := fun messages' =>
    List.countP_cons_of_neg (by simpa using not_isTurn_note n)
  unfold insertNote
  split
  · rw [← List.singleton_append, turns_append, hnote, ← turns_append]
    rfl
  · exact hnote messages

theorem turns_filter (messages : List Message) : turns (messages.filter fun m => ¬ IsNote m) = turns messages := by
  rw [turns, List.countP_filter]
  refine List.countP_congr fun m _ => ?_
  constructor
  · intro h
    simp only [Bool.and_eq_true] at h
    exact h.1
  · intro h
    have hturn : IsTurn m := by simpa using h
    simp [hturn, not_isNote_of_isTurn hturn]

/-! ### Runs -/

/-- No call of the reply is made for the third time in the run, and each has an id of its own. -/
def Fresh (s : State) : Op → Prop
  | .reply (.message _ calls) =>
    match s.work with
    | some (.asked l) => (calls.map Call.id).Nodup ∧
        ∀ c ∈ calls, l.seen.count c.key + (calls.map Call.key).count c.key < 3
    | _ => True
  | _ => True

instance (s : State) : DecidablePred (Fresh s) := fun op => by
  unfold Fresh
  split
  · split <;> infer_instance
  · infer_instance

theorem notes_eq_nil {seen : List (String × String)} {calls : List Call}
    (h : ∀ c ∈ calls, seen.count c.key + (calls.map Call.key).count c.key < 3) : (countCalls seen calls).1 = [] := by
  induction calls generalizing seen with
  | nil => rfl
  | cons c calls ih =>
    have hhead := h c List.mem_cons_self
    simp only [List.map_cons, List.count_cons_self] at hhead
    have hcount : (c.key :: seen).count c.key ≠ 3 := by
      rw [List.count_cons_self]
      omega
    have htail : ∀ c' ∈ calls, (c.key :: seen).count c'.key + (calls.map Call.key).count c'.key < 3 := by
      intro c' hc'
      have hc := h c' (List.mem_cons_of_mem _ hc')
      simp only [List.map_cons, List.count_cons] at hc ⊢
      omega
    simp only [countCalls, if_neg hcount]
    exact ih htail

structure RowOk (row : Row) : Prop where
  done : row.status = .done → Open [] row.messages
  waiting : row.status = .waitingApproval →
    ∀ p ∈ row.pending, Open (p.callId :: p.remaining.map Call.id) row.messages

/-- The messages of a process. -/
def WorkOk (row : Option Row) : Work → Prop
  | .spawned => ∀ r ∈ row, Open [] r.messages
  | .run l | .asked l | .summing l => Open [] l.messages
  | .process l calls => Open (calls.map Call.id) l.messages
  | .resumed messages calls => Open (calls.map Call.id) messages

/-- **The invariant.** -/
structure Inv (s : State) : Prop where
  row : ∀ row ∈ s.row, RowOk row
  running : ∀ w ∈ s.work, ∀ row ∈ s.row, row.status = .running
  work : ∀ w ∈ s.work, WorkOk s.row w
  passed : ∀ l ∈ s.passed, Open [] l

variable {host : Host} {s : State} {l : Loop} {messages : List Message}

theorem inv_start : Inv {} := ⟨by simp, by simp, by simp, by simp⟩

theorem rowOk_running {row : Row} (h : row.status = .running) : RowOk row :=
  ⟨fun hd => absurd (h.symm.trans hd) (by decide), fun hw => absurd (h.symm.trans hw) (by decide)⟩

theorem Inv.goOn (h : Inv s) {w w' : Work} (hw : s.work = some w) (hw' : WorkOk s.row w') :
    Inv { s with work := some w' } := by
  refine ⟨h.row, fun _ _ row hrow => h.running w hw row hrow, fun w'' hw'' => ?_, h.passed⟩
  rw [← Option.some.inj hw'']
  exact hw'

theorem Inv.rest (h : Inv s) : Inv { s with work := none } := ⟨h.row, by simp, by simp, h.passed⟩

theorem Inv.finish (h : Inv s) {status : Status} (hstatus : status = .failed ∨ status = .done ∧ Open [] messages) :
    Inv (s.finish status messages) := by
  refine ⟨fun row hrow => ?_, by simp [State.finish], by simp [State.finish], h.passed⟩
  obtain ⟨row', hrow', rfl⟩ := Option.map_eq_some_iff.mp hrow
  rcases hstatus with rfl | ⟨rfl, hopen⟩
  · exact ⟨nofun, nofun⟩
  · exact ⟨fun _ => hopen, nofun⟩

theorem Inv.wait (h : Inv s) {c : Call} {remaining : List Call} (hopen : Open (c.id :: remaining.map Call.id) messages) :
    Inv (s.wait messages c remaining) := by
  refine ⟨fun row hrow => ?_, by simp [State.wait], by simp [State.wait], h.passed⟩
  obtain ⟨row', hrow', rfl⟩ := Option.map_eq_some_iff.mp hrow
  refine ⟨nofun, fun _ p hp => ?_⟩
  rw [← Option.some.inj hp]
  exact hopen

theorem Inv.save (h : Inv s) {w w' : Work} (hw : s.work = some w) {f : Row → Row}
    (hf : ∀ row, (f row).status = row.status) (hw' : ∀ row, s.row = row → WorkOk (row.map f) w') :
    Inv { s with row := s.row.map f, work := some w' } := by
  have hrunning : ∀ row ∈ s.row.map f, row.status = .running := by
    intro row hrow
    obtain ⟨row', hrow', rfl⟩ := Option.map_eq_some_iff.mp hrow
    rw [hf]
    exact h.running w hw row' hrow'
  refine ⟨fun row hrow => rowOk_running (hrunning row hrow), fun _ _ => hrunning, fun w'' hw'' => ?_, h.passed⟩
  rw [← Option.some.inj hw'']
  exact hw' s.row rfl

theorem inv_onReply (h : Inv s) (hw : s.work = some (.asked l)) {r : Reply} (hfresh : Fresh s (.reply r)) :
    Inv (onReply host s l r) := by
  have hopen : Open [] l.messages := h.work _ hw
  cases r with
  | rateLimited =>
    simp only [onReply]
    split_ifs
    · exact h.finish (Or.inl rfl)
    · exact h.goOn hw hopen
  | raises => exact h.finish (Or.inl rfl)
  | message content calls =>
    simp only [Fresh, hw] at hfresh
    obtain ⟨hids, hcounts⟩ := hfresh
    by_cases hempty : calls = [] ∧ host.blank content
    · simp only [onReply, if_pos hempty]
      split_ifs
      · exact h.finish (Or.inl rfl)
      · exact h.goOn hw hopen
    · simp only [onReply, if_neg hempty]
      have hreply : Open (calls.map Call.id) (l.messages ++ [.assistant content calls]) := hopen.append (if_pos hids)
      by_cases hcalls : calls = []
      · subst hcalls
        rw [if_pos rfl]
        split_ifs
        · exact h.goOn hw (hreply.user _)
        · exact h.finish (Or.inr ⟨rfl, hreply⟩)
      · simp only [if_neg hcalls]
        refine h.goOn hw ?_
        rw [notes_eq_nil hcounts, List.append_nil]
        exact hreply

theorem inv_step (h : Inv s) {op : Op} (hop : Fresh s op) : Inv (step host s op) := by
  cases op with
  | start system content =>
    simp only [step]
    by_cases hrow : s.row.isSome
    · rw [if_pos hrow]
      exact h
    · rw [if_neg hrow]
      refine ⟨fun row hrow => ?_, fun _ _ row hrow => ?_, fun w hw => ?_, h.passed⟩
      · rw [← Option.some.inj hrow]
        exact rowOk_running rfl
      · rw [← Option.some.inj hrow]
      · rw [← Option.some.inj hw]
        intro row hrow
        rw [← Option.some.inj hrow]
        rfl
  | followUp content =>
    simp only [step]
    split
    · next row hrow =>
      split_ifs with hdone
      · have hopen := ((h.row row hrow).done hdone).user content
        refine ⟨fun row' hrow' => ?_, fun _ _ row' hrow' => ?_, fun w hw => ?_, h.passed⟩
        · rw [← Option.some.inj hrow']
          exact rowOk_running rfl
        · rw [← Option.some.inj hrow']
        · rw [← Option.some.inj hw]
          intro row' hrow'
          rw [← Option.some.inj hrow']
          exact hopen
      · exact h
    · exact h
  | begin system =>
    simp only [step]
    split
    · next row hw hrow =>
      have hopen : Open [] row.messages := h.work _ hw row hrow
      split_ifs
      · cases system with
        | none => exact h.finish (Or.inl rfl)
        | some system =>
          refine h.goOn hw ?_
          change Open [] (rebuild system row.messages)
          unfold rebuild
          split
          · next heq =>
            rw [heq] at hopen
            exact hopen
          · exact hopen
      · exact h.rest
    · exact h
  | ask =>
    simp only [step]
    split
    · next l hw =>
      have hopen : Open [] l.messages := h.work _ hw
      have hpass : ∀ {messages w'}, Open [] messages → WorkOk s.row w' →
          Inv { s with work := some w', passed := s.passed ++ [messages] } := by
        intro messages w' hmessages hw'
        refine { h.goOn hw hw' with passed := fun l' hl' => ?_ }
        rcases List.mem_append.mp hl' with hl' | hl'
        · exact h.passed l' hl'
        · rw [List.mem_singleton.mp hl']
          exact hmessages
      split_ifs
      · exact hpass (open_compact host hopen) (open_compact host hopen)
      · exact hpass (hopen.user _) (hopen.user _)
    · exact h
  | reply r =>
    simp only [step]
    split
    · next l hw => exact inv_onReply h hw hop
    · next l hw =>
      have hopen : Open [] l.messages := h.work _ hw
      split
      · exact h.finish (Or.inr ⟨rfl, hopen.append rfl⟩)
      · exact h.finish (Or.inl rfl)
    · exact h
  | call o =>
    simp only [step]
    split
    · next l c calls hw =>
      have hopen : Open (c.id :: calls.map Call.id) l.messages := h.work _ hw
      cases o with
      | result content => exact h.goOn hw (hopen.tool content)
      | gated => exact h.wait hopen
      | raises => exact h.finish (Or.inl rfl)
    · next messages c calls hw =>
      have hopen : Open (c.id :: calls.map Call.id) messages := h.work _ hw
      cases o with
      | result content => exact h.goOn hw (hopen.tool content)
      | gated => exact h.wait hopen
      | raises => exact h.rest
    · exact h
  | save =>
    simp only [step]
    split
    · next l hw => exact h.save hw (fun _ => rfl) fun _ _ => h.work _ hw
    · next messages hw =>
      refine h.save hw (fun _ => rfl) fun row _ row' hrow' => ?_
      obtain ⟨row'', -, rfl⟩ := Option.map_eq_some_iff.mp hrow'
      exact h.work _ hw
    · exact h
  | resume result =>
    simp only [step]
    split
    · next row hrow =>
      split
      · next p hstatus hpending =>
        have hopen := (h.row row hrow).waiting hstatus p hpending
        refine ⟨fun row' hrow' => ?_, fun _ _ row' hrow' => ?_, fun w hw => ?_, h.passed⟩
        · rw [← Option.some.inj hrow']
          exact rowOk_running rfl
        · rw [← Option.some.inj hrow']
        · obtain ⟨content, -, rfl⟩ := Option.map_eq_some_iff.mp hw
          exact hopen.tool content
      · exact h
    · exact h
  | crash => exact h.rest

/-- **Calls and their results.** In every run in which no call is made for the third time, whatever the model replies
and wherever the process is interrupted, each list that the model is given has each call followed by its result. -/
theorem paired_of_fresh (host : Host) (ops : List Op) (h : Along (step host) Fresh {} ops) :
    ∀ l ∈ (run (step host) {} ops).passed, Paired l := by
  intro l hl
  have hinv := inv_run (I := Inv) (fun _ _ hs hop => inv_step hs hop) inv_start h
  exact paired_iff.mpr (hinv.passed l hl)

def plainHost : Host := ⟨fun arguments _ => arguments, fun content => content = "", fun _ => false⟩

/-- The model reads the ledger and writes to a customer; the owner approves, and asks for more. -/
def followedUp : List Op :=
  [.start "system" "remind Ravi", .begin (some "system"), .ask,
    .reply (.message "" [⟨"c1", "query_ledger_sql", "{}"⟩, ⟨"c2", "send_whatsapp_message", "{}"⟩]),
    .call (.result "[]"), .call .gated, .resume (some "sent"), .save, .begin (some "system"), .ask,
    .reply (.message "Done." []), .followUp "thanks", .begin (some "system"), .ask]

theorem paired_followedUp : (run (step plainHost) {} followedUp).passed.length = 3 ∧
    ∀ l ∈ (run (step plainHost) {} followedUp).passed, Paired l :=
  ⟨by decide, paired_of_fresh plainHost followedUp (by decide)⟩

def again (id : String) : List Op :=
  [.ask, .reply (.message "" [⟨id, "query_ledger_sql", "{}"⟩]), .call (.result "[]"), .save]

def thrice : List Op :=
  [.start "system" "who owes me?", .begin (some "system")] ++ again "c1" ++ again "c2" ++ again "c3" ++ [.ask]

/-- The note on the third call comes between the call and its result. -/
theorem thrice_not_paired : ¬ ∀ (host : Host) (ops : List Op), ∀ l ∈ (run (step host) {} ops).passed, Paired l := by
  intro h
  have hlast : ∃ l ∈ (run (step plainHost) {} thrice).passed, scan awaits [] l ≠ some [] := by decide +kernel
  obtain ⟨l, hl, hnot⟩ := hlast
  exact hnot (paired_iff.mp (h plainHost thrice l hl))

end Smara.Server.Sessions
