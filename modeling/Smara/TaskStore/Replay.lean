import Mathlib.Data.Prod.Lex
import Smara.Lib.Feed
import Smara.TaskStore.Refine

/-! # The replay of task events

`events_after` gives a client the events of a task after the last one it has seen, in the order of
`(created_at, id)`. A writer stamps its events before its transaction commits, and the ids are random:
`returned_once_iff` says that a client that asks again and again has been given every event once if
and only if each was, when it was committed, after the last event that the client had seen. -/

namespace Smara.TaskStore.Replay

open Lib.Machine Lib.Table Lib.Transaction Lib.Feed
open TaskStore.Schema TaskStore.Schema.TaskDb TaskStore.Lifecycle
open TaskStore.Claim TaskStore.Report TaskStore.Calls TaskStore.Effects
open TaskStore.Refine

variable {db db' : TaskDb} {env : Env} {t : Uuid} {a : String}

/-! ### Reading events -/

/-- `created_at>? OR (created_at=? AND id>?)`. -/
def After (row e : TaskEvent) : Prop :=
  row.createdAt < e.createdAt ∨ (row.createdAt = e.createdAt ∧ row.id < e.id)

instance (row e : TaskEvent) : Decidable (After row e) := by unfold After; infer_instance

/-- `ORDER BY created_at,id`. -/
def NotAfter (e e' : TaskEvent) : Prop := ¬ After e' e

instance : DecidableRel NotAfter := fun _ _ => by unfold NotAfter; infer_instance

def ordered (events : List TaskEvent) : List TaskEvent := events.insertionSort NotAfter

def events (taskId : Uuid) (accountId : String) (db : TaskDb) : Except Err (List TaskEvent) := do
  let _ ← get taskId accountId db
  return ordered (db.taskEvents.filter fun e => e.taskId = taskId)

def eventsAfter (taskId : Uuid) (accountId : String) (eventId : Option Uuid) (db : TaskDb) :
    Except Err (List TaskEvent) := do
  let _ ← get taskId accountId db
  match eventId.bind fun i => db.taskEvents.find? fun e => e.id = i ∧ e.taskId = taskId with
  | some row => return ordered (db.taskEvents.filter fun e => e.taskId = taskId ∧ After row e)
  | none => return ordered (db.taskEvents.filter fun e => e.taskId = taskId)

def eventKey (e : TaskEvent) : Time ×ₗ Uuid := toLex (e.createdAt, e.id)

theorem after_iff {row e : TaskEvent} : After row e ↔ eventKey row < eventKey e := by
  simp [After, eventKey, Prod.Lex.toLex_lt_toLex]

theorem notAfter_iff {e e' : TaskEvent} : NotAfter e e' ↔ eventKey e ≤ eventKey e' := by
  rw [NotAfter, after_iff, not_lt]

instance : Std.Total NotAfter :=
  ⟨fun e e' => by simpa only [notAfter_iff] using le_total (eventKey e) (eventKey e')⟩

instance : IsTrans TaskEvent NotAfter :=
  ⟨fun _ _ _ h h' => notAfter_iff.mpr ((notAfter_iff.mp h).trans (notAfter_iff.mp h'))⟩

theorem mem_ordered {l : List TaskEvent} {e : TaskEvent} : e ∈ ordered l ↔ e ∈ l :=
  List.mem_insertionSort NotAfter

theorem ordered_pairwise {l : List TaskEvent} (h : Keyed TaskEvent.id l) :
    (ordered l).Pairwise (eventKey · < eventKey ·) := by
  have hkeyed : ((ordered l).map TaskEvent.id).Nodup :=
    ((List.perm_insertionSort NotAfter l).map TaskEvent.id).nodup_iff.mpr h
  have hsorted : (ordered l).Pairwise NotAfter := List.pairwise_insertionSort NotAfter l
  refine (hsorted.and (List.pairwise_map.mp hkeyed)).imp fun {e e'} ⟨hle, hne⟩ => ?_
  refine lt_of_le_of_ne (notAfter_iff.mp hle) fun heq => hne ?_
  have hpair : (e.createdAt, e.id) = (e'.createdAt, e'.id) := toLex.injective heq
  exact congrArg Prod.snd hpair

def eventsOf (t : Uuid) (db : TaskDb) : List TaskEvent := db.taskEvents.filter fun e => e.taskId = t

theorem mem_eventsOf {e : TaskEvent} : e ∈ eventsOf t db ↔ e ∈ db.taskEvents ∧ e.taskId = t := by
  simp [eventsOf]

/-- **`events_after` reads the feed of the task**, if the cursor is the last event of it that the client
has seen. -/
theorem reads_eventsAfter (h : db.Constraints) {seen out : List TaskEvent}
    (hseen : ∀ e ∈ seen, e ∈ eventsOf t db)
    (hok : eventsAfter t a (seen.getLast?.map TaskEvent.id) db = .ok out) :
    Reads eventKey ⟨eventsOf t db, seen⟩ out := by
  have hkeyed : ∀ {p : TaskEvent → Bool}, Keyed TaskEvent.id (db.taskEvents.filter p) :=
    h.taskEvents.sublist (List.Sublist.map _ List.filter_sublist)
  have hrow : (seen.getLast?.map TaskEvent.id).bind (fun i =>
      db.taskEvents.find? fun e => e.id = i ∧ e.taskId = t) = seen.getLast? := by
    cases hl : seen.getLast? with
    | none => rfl
    | some l =>
      obtain ⟨hm, ht⟩ := mem_eventsOf.mp (hseen l (List.mem_of_getLast? hl))
      simp only [Option.map_some, Option.bind_some]
      cases hf : db.taskEvents.find? fun e => e.id = l.id ∧ e.taskId = t with
      | none =>
        have hnone := List.find?_eq_none.mp hf l hm
        simp [ht] at hnone
      | some e =>
        have hid : e.id = l.id ∧ e.taskId = t := by simpa using List.find?_some hf
        exact congrArg some (h.taskEvents.eq_of_key (List.mem_of_find?_eq_some hf) hm hid.1)
  simp only [eventsAfter, hrow] at hok
  cases hg : get t a db with
  | error e => simp [hg, bind, Except.bind] at hok
  | ok task =>
    cases hl : seen.getLast? with
    | none =>
      simp only [hg, hl, bind, Except.bind, pure, Except.pure, Except.ok.injEq] at hok
      rw [← hok]
      exact ⟨ordered_pairwise hkeyed, fun e => by simp [mem_ordered, Above, hl, eventsOf]⟩
    | some l =>
      simp only [hg, hl, bind, Except.bind, pure, Except.pure, Except.ok.injEq] at hok
      rw [← hok]
      refine ⟨ordered_pairwise hkeyed, fun e => ?_⟩
      simp [mem_ordered, Above, hl, eventsOf, after_iff, and_assoc]

/-! ### Writers -/

def Extends (db db' : TaskDb) : Prop := db.taskEvents <+: db'.taskEvents

instance : Std.Refl Extends := ⟨fun db => List.prefix_refl db.taskEvents⟩

instance : IsTrans TaskDb Extends := ⟨fun _ _ _ h h' => List.IsPrefix.trans h h'⟩

theorem extends_of_eq (h : db'.taskEvents = db.taskEvents) : Extends db db' := by
  unfold Extends
  exact h ▸ List.prefix_refl _

theorem Extends.trans {db'' : TaskDb} (h : Extends db db') (h' : Extends db' db'') : Extends db db'' :=
  List.IsPrefix.trans h h'

theorem extends_logEvent {t : Uuid} {type : String} {payload : Payload} {now : Time}
    (h : Extends db db') : Extends db (logEvent env t type payload now db') :=
  List.IsPrefix.trans h (List.prefix_append _ _)

theorem moves_transaction {β : Type} {body : TaskDb → Except Err (β × TaskDb)}
    (h : ∀ db b db', body db = .ok (b, db') → Extends db db') : Moves Extends (transaction body) :=
  moves_commit h

theorem moves_write {β : Type} {b : TaskDb → β} {w : TaskDb → TaskDb} (h : ∀ db, Extends db (w db)) :
    Moves Extends (transaction fun db => .ok (b db, w db)) :=
  moves_transaction fun db _ db' hb => by
    simp only [Except.ok.injEq, Prod.mk.injEq] at hb
    exact hb.2 ▸ h db

theorem extends_addResult {stepId : Uuid} {kind name : Option String} {result : String} {now : Time}
    (h : Extends db db') : Extends db (addResult env t stepId kind name result now db') := by
  unfold addResult
  split
  · exact h
  · exact extends_logEvent (h.trans (extends_of_eq rfl))

theorem moves_completeStep (s : Uuid) (r : String) (ak an : Option String) :
    Moves Extends (completeStep env s a r ak an) := by
  refine moves_transaction fun db u db' hb => ?_
  unfold completeStepWrite at hb
  dsimp only at hb
  split at hb
  · simp at hb
  · next row _ =>
    generalize hx : addResult env row.taskId s ak an r env.now _ = x at hb
    have hext : Extends db x := by
      rw [← hx]
      exact extends_addResult (extends_logEvent (extends_of_eq rfl))
    split_ifs at hb <;>
    · simp only [Except.ok.injEq, Prod.mk.injEq, true_and] at hb
      rw [← hb]
      first
      | exact extends_logEvent hext
      | exact hext

theorem moves_failStep (s : Uuid) (e : String) (d : ℤ) (retryable : Bool) :
    Moves Extends (failStep env s a e d retryable) := by
  refine moves_transaction fun db o db' hb => ?_
  unfold failStepWrite at hb
  dsimp only at hb
  split at hb
  · simp at hb
  · split_ifs at hb <;>
    · simp only [Except.ok.injEq, Prod.mk.injEq] at hb
      rw [← hb.2]
      exact extends_logEvent (extends_of_eq rfl)

theorem extends_foldl {β : Type} {f : TaskDb → β → TaskDb} (hf : ∀ db b, Extends db (f db b))
    (l : List β) (db : TaskDb) : Extends db (l.foldl f db) := by
  induction l generalizing db with
  | nil => exact extends_of_eq rfl
  | cons b l ih => exact (hf db b).trans (ih (f db b))

theorem extends_recoverHosted (db : TaskDb) (item : TaskStep) :
    Extends db (recoverHosted env env.now db item) := by
  unfold recoverHosted
  dsimp only
  split_ifs
  · split <;> exact extends_logEvent (extends_of_eq rfl)
  · exact extends_logEvent (extends_of_eq rfl)

theorem extends_recoverDesktop (db : TaskDb) (item : Task × TaskStep) :
    Extends db (recoverDesktop env env.now db item) := by
  unfold recoverDesktop
  dsimp only
  split_ifs <;> exact extends_logEvent (extends_of_eq rfl)

theorem moves_claimOne (w : String) (l : ℤ) (ks : List ExecutorKind) :
    Moves Extends (claimOne env w l ks) := by
  refine moves_transaction fun db b db' hb => ?_
  have hrec := extends_foldl (f := recoverHosted env env.now) extends_recoverHosted
    (expiredHosted env.now db) db
  simp only [claimOneWrite] at hb
  generalize (expiredHosted env.now db).foldl (recoverHosted env env.now) db = x at hb hrec
  split at hb
  · simp only [Except.ok.injEq, Prod.mk.injEq] at hb
    rw [← hb.2]
    exact hrec
  · split_ifs at hb <;>
    · simp only [Except.ok.injEq, Prod.mk.injEq] at hb
      rw [← hb.2]
      exact extends_logEvent (hrec.trans (extends_of_eq rfl))

theorem moves_claimForExecutorWrite (e : Executor) (l : ℤ) (safe loc : Bool) :
    Moves Extends (transaction (claimForExecutorWrite env e l safe loc)) := by
  refine moves_transaction fun db b db' hb => ?_
  have hrec := extends_foldl (f := recoverDesktop env env.now) extends_recoverDesktop
    (expiredDesktop env.now db) db
  simp only [claimForExecutorWrite] at hb
  generalize (expiredDesktop env.now db).foldl (recoverDesktop env env.now) db = x at hb hrec
  generalize (if (safe || loc) = true then x.tasks.filter fun t =>
    AutoApprovable e.capabilities loc e.accountId x t else []) = cs at hb
  have happ := extends_foldl (f := autoApprove env env.now e.accountId loc)
    (fun db t => extends_logEvent (extends_of_eq rfl)) cs x
  generalize cs.foldl (autoApprove env env.now e.accountId loc) x = y at hb happ
  split at hb
  · simp only [Except.ok.injEq, Prod.mk.injEq] at hb
    rw [← hb.2]
    exact hrec.trans happ
  · simp only [Except.ok.injEq, Prod.mk.injEq] at hb
    rw [← hb.2]
    exact extends_logEvent ((hrec.trans happ).trans (extends_of_eq rfl))

theorem moves_decide (t : Uuid) (a : String) (ok : Bool) (n s : String) :
    Moves Extends (Lifecycle.decide env t a ok n s) := by
  refine moves_andThen (moves_query _) fun _ => moves_andThen (moves_transaction fun db u db' hb => ?_)
    fun _ => moves_query _
  simp only [decideWrite, Except.ok.injEq, Prod.mk.injEq, true_and] at hb
  rw [← hb]
  cases ok <;> exact extends_logEvent (extends_of_eq rfl)

theorem moves_failExecutorCheck (x s : Uuid) (e : String) :
    Moves Extends (transaction (failExecutorCheck env x s e)) := by
  refine moves_transaction fun db b db' hb => ?_
  unfold failExecutorCheck at hb
  split at hb
  · simp at hb
  · split at hb
    · simp at hb
    · split_ifs at hb <;> simp only [Except.ok.injEq, Prod.mk.injEq] at hb <;> rw [← hb.2]
      · exact extends_logEvent (extends_of_eq rfl)
      · exact extends_of_eq rfl

theorem moves_heartbeat (x s : Uuid) (l : ℤ) :
    Moves Extends (transaction (heartbeatWrite env x s l)) := by
  refine moves_transaction fun db b db' hb => ?_
  unfold heartbeatWrite at hb
  dsimp only at hb
  split at hb
  · simp at hb
  · split at hb
    · simp at hb
    · split_ifs at hb <;>
      · simp only [Except.ok.injEq, Prod.mk.injEq] at hb
        rw [← hb.2]
        exact extends_of_eq rfl

theorem moves_revoke (e : Uuid) (p : Executor → Prop) [DecidablePred p] :
    Moves Extends (revoke e p) :=
  moves_andThen (moves_write fun _ => extends_of_eq rfl) fun _ => moves_query _

theorem moves_appendEvent (t : Uuid) (type : String) (payload : Payload) :
    Moves Extends (appendEvent env t type payload) :=
  moves_write fun _ => extends_logEvent (extends_of_eq rfl)

theorem extends_replying {β : Type} {f : β → Reply} {o : TaskDb → Except Err β × TaskDb}
    (h : Moves Extends o) (db : TaskDb) : Extends db (replying f (o db)).2 := h db

/-- **Every call only appends events.** -/
theorem extends_step (db : TaskDb) (call : Call) : Extends db (Calls.step db call) := by
  cases call with
  | create env a w t o r ss m =>
    refine extends_replying (moves_andThen (moves_transaction fun db u db' hb => ?_)
      fun _ => moves_query _) db
    obtain ⟨task, -, -, -, -, -, -, -, rfl⟩ := insertTask_ok hb
    exact extends_logEvent (extends_of_eq rfl)
  | createResearch env f a w t q ss =>
    refine extends_replying (moves_andThen (moves_write fun db => ?_) fun _ => moves_query _) db
    exact extends_logEvent (extends_logEvent (extends_of_eq rfl))
  | requestApproval env t a =>
    refine extends_replying (moves_andThen (moves_query _) fun _ => ?_) db
    split_ifs
    exacts [moves_query _, moves_andThen (moves_write fun _ => extends_logEvent (extends_of_eq rfl))
      fun _ => moves_query _, moves_query _]
  | decide env t a ok n s => exact extends_replying (moves_decide t a ok n s) db
  | decideForExecutor env e k t ok n =>
    exact extends_replying (moves_andThen (moves_query _) fun _ => moves_decide _ _ _ _ _) db
  | cancel env t a =>
    refine extends_replying (moves_andThen (moves_query _) fun _ => ?_) db
    split_ifs
    · exact moves_query _
    · refine moves_andThen (moves_write fun db => ?_) fun _ => moves_query _
      split_ifs <;> exact extends_logEvent (extends_of_eq rfl)
  | retryTask env t a =>
    refine extends_replying (moves_andThen (moves_query _) fun gated =>
      moves_andThen (moves_write fun db => ?_) fun _ => moves_query _) db
    split_ifs
    · exact extends_logEvent (extends_logEvent (extends_of_eq rfl))
    · exact extends_logEvent (extends_of_eq rfl)
  | claimOne env w l ks => exact extends_replying (moves_claimOne w l ks) db
  | claimForExecutor env e k l safe loc =>
    exact extends_replying (moves_andThen (moves_query _) fun _ =>
      moves_claimForExecutorWrite _ l safe loc) db
  | completeStep env s a r ak an => exact extends_replying (moves_completeStep s r ak an) db
  | failStep env s a e d r => exact extends_replying (moves_failStep s e d r) db
  | completeExecutorStep env e k s r =>
    refine extends_replying (moves_andThen (moves_query _) fun _ =>
      moves_andThen (moves_transaction fun db b db' hb => ?_) fun _ =>
        moves_andThen (moves_query _) fun _ => moves_completeStep s r _ _) db
    unfold completeExecutorCheck at hb
    split at hb
    · simp at hb
    · simp only [Except.ok.injEq, Prod.mk.injEq] at hb
      rw [← hb.2]
      exact extends_of_eq rfl
  | failExecutorStep env e k s err =>
    refine extends_replying (moves_andThen (moves_query _) fun _ =>
      moves_andThen (moves_failExecutorCheck e s err) fun _ => ?_) db
    dsimp only
    split_ifs
    exacts [moves_query _, moves_failStep s err 30 _]
  | heartbeatExecutorStep env e k s l =>
    exact extends_replying (moves_andThen (moves_query _) fun _ => moves_heartbeat e s l) db
  | appendExecutorProgress env e k s m =>
    refine extends_replying (moves_andThen (moves_query _) fun _ => ?_) db
    dsimp only
    split_ifs
    · exact moves_query _
    · refine moves_transaction fun db b db' hb => ?_
      split at hb
      · simp at hb
      · simp only [Except.ok.injEq, Prod.mk.injEq] at hb
        rw [← hb.2]
        exact extends_logEvent (extends_of_eq rfl)
  | appendEvent env t ty p => exact extends_replying (moves_appendEvent t ty p) db
  | createArtifact env t a k n c =>
    refine extends_replying (moves_andThen (moves_query _) fun _ =>
      moves_andThen (moves_write fun db => ?_) fun _ => moves_appendEvent _ _ _) db
    exact extends_of_eq rfl
  | addEvidence env t a u ti =>
    refine extends_replying (moves_andThen (moves_query _) fun _ =>
      moves_transaction fun db b db' hb => ?_) db
    split_ifs at hb <;>
    · simp only [Except.ok.injEq, Prod.mk.injEq] at hb
      rw [← hb.2]
      exact extends_of_eq rfl
  | updateEvidence e t s ti =>
    refine extends_replying (moves_write fun db => ?_) db
    exact extends_of_eq rfl
  | createExecutorPairing env c a n cs =>
    refine extends_replying (moves_write fun db => ?_) db
    exact extends_of_eq rfl
  | pairExecutor env c k =>
    refine extends_replying (moves_transaction fun db b db' hb => ?_) db
    split at hb
    · simp at hb
    · simp only [Except.ok.injEq, Prod.mk.injEq] at hb
      rw [← hb.2]
      exact extends_of_eq rfl
  | heartbeatExecutor env e k cs =>
    refine extends_replying (moves_andThen (moves_query _) fun _ => ?_) db
    split_ifs
    exacts [moves_query _, moves_write fun _ => extends_of_eq rfl]
  | revokeExecutor e a => exact extends_replying (moves_revoke e _) db
  | revokeExecutorWithToken e k => exact extends_replying (moves_revoke e _) db

/-- What a transaction of the store is to the readers of events: it keeps the constraints and appends
events, whose times it has read and whose ids it has drawn at any moment before. -/
structure Writer where
  run : TaskDb → TaskDb
  keeps : ∀ db, db.Constraints → (run db).Constraints
  extend : ∀ db, Extends db (run db)

def Writer.ofCall (call : Call) : Writer :=
  ⟨fun db => Calls.step db call, fun _ h => constraints_step call h, fun db => extends_step db call⟩

/-- The tables, and the events that the client has been given. -/
structure World where
  db : TaskDb
  seen : List TaskEvent

inductive Op
  | write (w : Writer)
  | poll

/-- The client asks for the events after the last one it has seen; an error gives it nothing. -/
def poll (t : Uuid) (a : String) (w : World) : List TaskEvent :=
  match eventsAfter t a (w.seen.getLast?.map TaskEvent.id) w.db with
  | .ok out => w.seen ++ out
  | .error _ => w.seen

def step (t : Uuid) (a : String) (w : World) : Op → World
  | .write f => ⟨f.run w.db, w.seen⟩
  | .poll => ⟨w.db, poll t a w⟩

def ReturnedOnce (t : Uuid) (w : World) : Prop := ∀ e ∈ eventsOf t w.db, w.seen.count e = 1

/-- The events of the task that a writer commits come after the last event that the client has
seen. -/
def Ahead (t : Uuid) (w : World) : Op → Prop
  | .write f => ∀ e ∈ ((f.run w.db).taskEvents.drop w.db.taskEvents.length), e.taskId = t →
      ∀ l ∈ w.seen.getLast?, After l e
  | .poll => True

def feed (t : Uuid) (w : World) : Subscription TaskEvent := ⟨eventsOf t w.db, w.seen⟩

def Current (t : Uuid) (w : World) : Prop := w.db.Constraints ∧ Consistent eventKey (feed t w)

def Behind (t : Uuid) (w : World) : Prop :=
  w.db.Constraints ∧ (∀ e ∈ w.seen, e ∈ eventsOf t w.db) ∧ ∃ e, Missed eventKey (feed t w) e

variable {w : World}

theorem eventsOf_write (f : Writer) : eventsOf t (f.run db) = eventsOf t db ++
    ((f.run db).taskEvents.drop db.taskEvents.length).filter fun e => e.taskId = t := by
  obtain ⟨es, hes⟩ := f.extend db
  rw [eventsOf, eventsOf, ← hes, List.drop_left, List.filter_append]

theorem above_iff {e : TaskEvent} :
    Above eventKey (feed t w) e ↔ ∀ l ∈ w.seen.getLast?, After l e := by
  simp only [Above, feed, after_iff]

theorem current_write {f : Writer} (h : Current t w) (hG : Ahead t w (.write f)) :
    Current t (step t a w (.write f)) := by
  refine ⟨f.keeps _ h.1, ?_⟩
  have hnew : ∀ e ∈ ((f.run w.db).taskEvents.drop w.db.taskEvents.length).filter
      fun e => e.taskId = t, Above eventKey (feed t w) e := by
    intro e he
    obtain ⟨hm, ht⟩ := List.mem_filter.mp he
    exact above_iff.mpr (hG e hm (of_decide_eq_true ht))
  have hcommit := h.2.commit hnew
  rw [feed, step, eventsOf_write]
  exact hcommit

theorem behind_write {f : Writer} (h : Current t w) (hG : ¬ Ahead t w (.write f)) :
    Behind t (step t a w (.write f)) := by
  obtain ⟨hcons, hfeed⟩ := h
  simp only [Ahead, not_forall] at hG
  obtain ⟨e, hm, ht, l, hl, hafter⟩ := hG
  have hkeys : Keyed TaskEvent.id
      (w.db.taskEvents ++ (f.run w.db).taskEvents.drop w.db.taskEvents.length) := by
    obtain ⟨es, hes⟩ := f.extend w.db
    rw [← hes, List.drop_left, hes]
    exact (f.keeps _ hcons).taskEvents
  have hnew : e ∉ eventsOf t w.db := fun he =>
    (keyed_append.mp hkeys).2.2 e (mem_eventsOf.mp he).1 e hm rfl
  have hmem : e ∈ ((f.run w.db).taskEvents.drop w.db.taskEvents.length).filter
      fun e => e.taskId = t := List.mem_filter.mpr ⟨hm, decide_eq_true ht⟩
  have hmissed := missed_of_commit hfeed hmem hnew fun ha => hafter (above_iff.mp ha l hl)
  refine ⟨f.keeps _ hcons, fun x hx => ?_, e, ?_⟩
  · rw [step, eventsOf_write]
    exact List.mem_append_left _ (hfeed.sound x hx)
  · rw [feed, step, eventsOf_write]
    exact hmissed

theorem reads_poll (h : w.db.Constraints) (hseen : ∀ e ∈ w.seen, e ∈ eventsOf t w.db) :
    poll t a w = w.seen ∨ ∃ out, Reads eventKey (feed t w) out ∧ poll t a w = w.seen ++ out := by
  unfold poll
  cases hok : eventsAfter t a (w.seen.getLast?.map TaskEvent.id) w.db with
  | error e => exact Or.inl rfl
  | ok out => exact Or.inr ⟨out, reads_eventsAfter h hseen hok, rfl⟩

theorem current_poll (h : Current t w) : Current t (step t a w .poll) := by
  refine ⟨h.1, ?_⟩
  rcases reads_poll (a := a) h.1 h.2.sound with he | ⟨out, hr, he⟩
  · rw [feed, step, he]
    exact h.2
  · rw [feed, step, he]
    exact (h.2.read hr).1

theorem behind_step (h : Behind t w) (op : Op) : Behind t (step t a w op) := by
  obtain ⟨hcons, hseen, e, hmissed⟩ := h
  cases op with
  | write f =>
    refine ⟨f.keeps _ hcons, fun x hx => ?_, e, ?_⟩
    · rw [step, eventsOf_write]
      exact List.mem_append_left _ (hseen x hx)
    · rw [feed, step, eventsOf_write]
      exact hmissed.commit
  | poll =>
    rcases reads_poll (a := a) hcons hseen with he | ⟨out, hr, he⟩
    · refine ⟨hcons, fun x hx => hseen x ?_, e, ?_⟩
      · rwa [step, he] at hx
      · rw [feed, step, he]
        exact hmissed
    · refine ⟨hcons, fun x hx => ?_, e, ?_⟩
      · rw [step, he] at hx
        rcases List.mem_append.mp hx with hx | hx
        · exact hseen x hx
        · exact ((hr.mem x).mp hx).1
      · rw [feed, step, he]
        exact hmissed.read hr

theorem not_returnedOnce_of_behind (h : Behind t w) : ¬ ReturnedOnce t w := by
  obtain ⟨-, -, e, hlog, hseen, -⟩ := h
  intro hall
  have hone : w.seen.count e = 1 := hall e hlog
  have hzero : w.seen.count e = 0 := List.count_eq_zero.mpr hseen
  omega

theorem returnedOnce_of_current (h : Current t w)
    (hown : ∃ task ∈ w.db.tasks, task.id = t ∧ task.accountId = a) :
    ReturnedOnce t (step t a w .poll) := by
  obtain ⟨out, hok⟩ : ∃ out, eventsAfter t a (w.seen.getLast?.map TaskEvent.id) w.db = .ok out := by
    have hget : ∃ task, get t a w.db = .ok task := by
      unfold Lifecycle.get
      cases hf : w.db.tasks.find? fun x => x.id = t ∧ x.accountId = a with
      | some task => exact ⟨task, rfl⟩
      | none =>
        obtain ⟨task, hm, hid⟩ := hown
        exact absurd (decide_eq_true hid) (List.find?_eq_none.mp hf task hm)
    obtain ⟨task, hget⟩ := hget
    simp only [eventsAfter, hget, bind, Except.bind]
    split <;> exact ⟨_, rfl⟩
  have hr := reads_eventsAfter h.1 h.2.sound hok
  have hpoll : poll t a w = w.seen ++ out := by rw [poll, hok]
  obtain ⟨hcons, hall⟩ := h.2.read hr
  intro e he
  rw [step, hpoll]
  exact count_eq_one hcons.ordered (hall e he)

/-- **Replay.** After a client's last poll, every event of its task has been given to it once if and only
if each was, when it was committed, after the last event the client had seen. -/
theorem returned_once_iff {db₀ : TaskDb} (h₀ : db₀.Constraints) {ops : List Op}
    (hown : ∃ task ∈ (run (step t a) ⟨db₀, []⟩ ops).db.tasks, task.id = t ∧ task.accountId = a) :
    ReturnedOnce t (run (step t a) ⟨db₀, []⟩ (ops ++ [.poll])) ↔
      Along (step t a) (Ahead t) ⟨db₀, []⟩ ops := by
  have hstart : Current t ⟨db₀, []⟩ := ⟨h₀, consistent_start _⟩
  have hstep : ∀ w op, Current t w → Ahead t w op → Current t (step t a w op) := fun w op h hG => by
    cases op with
    | write f => exact current_write h hG
    | poll => exact current_poll h
  have hbreak : ∀ w op, Current t w → ¬ Ahead t w op → Behind t (step t a w op) := fun w op h hG => by
    cases op with
    | write f => exact behind_write h hG
    | poll => exact absurd trivial hG
  rw [run_append, run_cons, run_nil]
  constructor
  · intro hall
    rcases along_or_broken hstep hbreak (fun _ op hB => behind_step hB op) hstart with h | hB
    · exact h.1
    · exact absurd hall (not_returnedOnce_of_behind (behind_step hB .poll))
  · exact fun hG => returnedOnce_of_current (inv_run hstep hstart hG) hown

instance (t : Uuid) (w : World) : Decidable (ReturnedOnce t w) := by
  unfold ReturnedOnce
  infer_instance

def watched : List Op :=
  [.write (.ofCall (.create (envAt 0) "a" "w" "title" "objective" false [] .hosted)), .poll]

def note (n : ℤ) : Op := .write (.ofCall (.appendEvent (envAt n) 0 "step.started" (.obj [])))

theorem returned_once_iff_of_inOrder :
    ReturnedOnce 0 (run (step 0 "a") ⟨{}, []⟩ ((watched ++ [note 1, .poll, note 2]) ++ [.poll])) ↔
      Along (step 0 "a") (Ahead 0) ⟨{}, []⟩ (watched ++ [note 1, .poll, note 2]) :=
  returned_once_iff constraints_empty (by decide)

/-- **The claim fails**: the event stamped first is committed last, when the client has seen the
other. -/
theorem event_skipped :
    ¬ ReturnedOnce 0 (run (step 0 "a") ⟨{}, []⟩ (watched ++ [note 2, .poll, note 1, .poll])) := by
  decide

end Smara.TaskStore.Replay
