import Mathlib.Algebra.Ring.Nat
import Mathlib.Data.List.Infix

/-! # Sessions of the agent

A session is a list of messages that is kept in the database. A run asks the model, carries out the calls of its
reply, and asks again; it stops at a call that the owner must approve, and is resumed after the tap. The owner may
go on with a session that is done. Whatever the process does not reach is not done: after a crash nothing takes the
session up again.

* `compact`: what is left of the messages when they are long.
* `Work`, `Op`, `step`: the loop of the agent, `resume` and the follow-ups, from one statement or answer to the next.
* `State.passed`: the lists that the model is given. -/

namespace Smara.Server.Sessions

/-- A call of the model. -/
structure Call where
  id : String
  name : String
  arguments : String
  deriving DecidableEq

inductive Message
  | system (content : String)
  | user (content : String)
  | assistant (content : String) (calls : List Call)
  | tool (callId content : String)
  deriving DecidableEq

/-- What is not modelled of the host. -/
structure Host where
  /-- `_shrink_args`: the arguments with their texts cut to a length -/
  shrinkArgs : String → ℕ → String
  /-- the content has no text -/
  blank : String → Bool
  /-- `owes_file` -/
  owesFile : List Message → Bool

/-! ### Compaction -/

def clip (text : String) (limit : ℕ) : String :=
  if text.length ≤ limit then text
  else String.ofList (text.toList.take limit) ++ "...[truncated " ++ toString (text.length - limit) ++ " chars]"

def Message.content : Message → String
  | .system c | .user c | .assistant c _ | .tool _ c => c

def Message.calls : Message → List Call
  | .assistant _ calls => calls
  | _ => []

def size (messages : List Message) : ℕ :=
  (messages.map fun m => m.content.length + (m.calls.map fun c => c.arguments.length).sum).sum

def IsNote : Message → Prop
  | .user c => "[Earlier conversation omitted".toList <+: c.toList
  | _ => False

instance : DecidablePred IsNote := fun m => by
  cases m <;> dsimp only [IsNote] <;> infer_instance

def IsPage : Message → Prop
  | .tool _ c => "\"page\": \"".toList <:+: c.toList
  | _ => False

instance : DecidablePred IsPage := fun m => by
  cases m <;> dsimp only [IsPage] <;> infer_instance

def note (n : ℕ) : Message :=
  .user ("[Earlier conversation omitted to save space: " ++ toString n ++
    " messages. Re-query tools if you need old details.]")

def IsTurn : Message → Prop
  | .user c => ¬ IsNote (.user c)
  | _ => False

instance : DecidablePred IsTurn := fun m => by
  cases m <;> dsimp only [IsTurn] <;> infer_instance

def keepRecent : ℕ := 10

def budgetChars : ℕ := 60000

def clipPage (old : Bool) : Message → Message
  | .tool id c => .tool id (if old then clip c 1500 else c)
  | m => m

def shrink (host : Host) (old : Bool) : Message → Message
  | .tool id c => .tool id (if old then clip c 600 else c)
  | .assistant c calls =>
    .assistant c (if old then calls.map fun call => { call with arguments := host.shrinkArgs call.arguments 500 } else calls)
  | m => m

/-- The positions of the pages but for the last two. -/
def oldPages (messages : List Message) : List ℕ :=
  let pages := (List.range messages.length).filter fun i => ∃ m ∈ messages[i]?, IsPage m
  pages.take (pages.length - 2)

/-- The first loop of `compact`. -/
def shrinkAll (host : Host) (messages : List Message) : List Message :=
  let cutoff := messages.length - keepRecent
  messages.mapIdx fun i m => shrink host (i < cutoff) (clipPage (i ∈ oldPages messages ∧ cutoff ≤ i) m)

def insertNote (n : ℕ) : List Message → List Message
  | .system c :: messages => .system c :: note n :: messages
  | messages => note n :: messages

/-- The second loop of `compact`: the first turn is left out as long as the messages are too long, but not the last. -/
def dropTurns : ℕ → ℕ → List Message → List Message
  | 0, _, out => out
  | fuel + 1, omitted, out =>
    if size out ≤ budgetChars then out
    else
      let before := out.takeWhile fun m => ¬ IsTurn m
      match out.dropWhile fun m => ¬ IsTurn m with
      | [] => out
      | _ :: rest =>
        let turn := rest.takeWhile fun m => ¬ IsTurn m
        match rest.dropWhile fun m => ¬ IsTurn m with
        | [] => out
        | next :: after =>
          let omitted := omitted + (1 + turn.length)
          dropTurns fuel omitted (insertNote omitted ((before ++ next :: after).filter fun m => ¬ IsNote m))

def compact (host : Host) (messages : List Message) : List Message :=
  dropTurns messages.length 0 (shrinkAll host messages)

/-! ### The loop -/

inductive Status
  | running | waitingApproval | done | failed
  deriving DecidableEq

/-- The call that waits for the owner, and those after it. -/
structure Pending where
  callId : String
  name : String
  remaining : List Call

/-- A row of `agent_sessions`. -/
structure Row where
  status : Status := .running
  messages : List Message
  pending : Option Pending := none

/-- The variables of `run`. -/
structure Loop where
  messages : List Message
  budget : ℕ := 0
  /-- the calls so far, with their arguments -/
  seen : List (String × String) := []
  nudged : Bool := false
  empties : ℕ := 0
  busy : ℕ := 0

/-- What a process does with the session. -/
inductive Work
  /-- `run` is to read the row -/
  | spawned
  /-- `run` is to ask the model -/
  | run (l : Loop)
  /-- the model was asked -/
  | asked (l : Loop)
  /-- the model was asked for a summary -/
  | summing (l : Loop)
  /-- `_process` for `run`, with the calls that are to come -/
  | process (l : Loop) (calls : List Call)
  /-- `_process` for `resume` -/
  | resumed (messages : List Message) (calls : List Call)

structure State where
  row : Option Row := none
  work : Option Work := none
  /-- the lists that `llm.chat` was given -/
  passed : List (List Message) := []

/-- What `llm.chat` does. -/
inductive Reply
  | rateLimited
  | raises
  | message (content : String) (calls : List Call)

/-- What comes of a call. -/
inductive Outcome
  /-- it was denied, carried out, or refused by `validate_gated`; the text is what the model is told -/
  | result (content : String)
  /-- it waits for the owner -/
  | gated
  | raises

inductive Op
  /-- `start_session` with a new session -/
  | start (system content : String)
  /-- `start_session` with a session that is done -/
  | followUp (content : String)
  /-- `run` reads the row, and builds the system message, unless that raises -/
  | begin (system : Option String)
  | ask
  | reply (r : Reply)
  | call (o : Outcome)
  /-- the calls are done, and the messages are saved -/
  | save
  /-- `resume`, up to its `_process`; `result` is what the model is told, unless the call raises -/
  | resume (result : Option String)
  /-- the process is gone -/
  | crash

def maxSteps : ℕ := 40

def rateRetries : ℕ := 4

def fileNote : Message :=
  .user ("[system note] The owner asked for a file and you have not sent one in this turn. Create it with run_python " ++
    "(the file type they asked for) and send it with send_file_to_owner, then confirm. Do this even if you sent a " ++
    "similar file earlier.")

def loopNote : Message :=
  .user ("[system note] You have made this exact call 3 times with the same result. Change your approach " ++
    "(different tool, different arguments) or explain what is blocking you.")

def budgetNote : Message :=
  .user ("[system note] Step budget reached. Without calling any tool, tell the owner briefly what you finished, " ++
    "what is left, and what you need from them to continue.")

def Call.key (c : Call) : String × String := (c.name, c.arguments)

def countCalls : List (String × String) → List Call → List Message × List (String × String)
  | seen, [] => ([], seen)
  | seen, c :: calls =>
    let seen := c.key :: seen
    let (notes, seen') := countCalls seen calls
    (if seen.count c.key = 3 then loopNote :: notes else notes, seen')

def State.finish (s : State) (status : Status) (messages : List Message) : State :=
  { s with row := s.row.map fun row => { row with status, messages }, work := none }

/-- The reply of the model to a run. -/
def onReply (host : Host) (s : State) (l : Loop) : Reply → State
  | .rateLimited =>
    if l.busy + 1 > rateRetries then s.finish .failed l.messages
    else { s with work := some (.run { l with busy := l.busy + 1 }) }
  | .raises => s.finish .failed l.messages
  | .message content calls =>
    let l := { l with budget := l.budget + 1 }
    if calls = [] ∧ host.blank content then
      let l := { l with empties := l.empties + 1 }
      if l.empties > 2 then s.finish .failed l.messages else { s with work := some (.run l) }
    else
      let messages := l.messages ++ [.assistant content calls]
      if calls = [] then
        if ¬ l.nudged ∧ host.owesFile l.messages then
          { s with work := some (.run { l with messages := messages ++ [fileNote], nudged := true }) }
        else s.finish .done messages
      else
        let (notes, seen) := countCalls l.seen calls
        { s with work := some (.process { l with messages := messages ++ notes, seen } calls) }

/-- The session waits for the owner. -/
def State.wait (s : State) (messages : List Message) (c : Call) (remaining : List Call) : State :=
  { s with
    row := s.row.map fun row =>
      { row with status := .waitingApproval, messages, pending := some ⟨c.id, c.name, remaining⟩ }
    work := none }

/-- `messages[0]` is built anew. -/
def rebuild (system : String) : List Message → List Message
  | .system _ :: messages => .system system :: messages
  | messages => messages

def step (host : Host) (s : State) : Op → State
  | .start system content =>
    if s.row.isSome then s
    else { s with row := some { messages := [.system system, .user content] }, work := some .spawned }
  | .followUp content =>
    match s.row with
    | some row =>
      if row.status = .done then
        { s with
          row := some { row with status := .running, messages := row.messages ++ [.user content] }
          work := some .spawned }
      else s
    | none => s
  | .begin system =>
    match s.work, s.row with
    | some .spawned, some row =>
      if row.status = .running then
        match system with
        | some system => { s with work := some (.run { messages := rebuild system row.messages }) }
        | none => s.finish .failed row.messages
      else { s with work := none }
    | _, _ => s
  | .ask =>
    match s.work with
    | some (.run l) =>
      if l.budget < maxSteps then
        let messages := compact host l.messages
        { s with work := some (.asked { l with messages }), passed := s.passed ++ [messages] }
      else
        let messages := l.messages ++ [budgetNote]
        { s with work := some (.summing { l with messages }), passed := s.passed ++ [messages] }
    | _ => s
  | .reply r =>
    match s.work with
    | some (.asked l) => onReply host s l r
    | some (.summing l) =>
      match r with
      | .message content _ => s.finish .done (l.messages ++ [.assistant content []])
      | _ => s.finish .failed l.messages
    | _ => s
  | .call o =>
    match s.work with
    | some (.process l (c :: calls)) =>
      match o with
      | .result content =>
        { s with work := some (.process { l with messages := l.messages ++ [.tool c.id content] } calls) }
      | .gated => s.wait l.messages c calls
      | .raises => s.finish .failed l.messages
    | some (.resumed messages (c :: calls)) =>
      match o with
      | .result content => { s with work := some (.resumed (messages ++ [.tool c.id content]) calls) }
      | .gated => s.wait messages c calls
      | .raises => { s with work := none }
    | _ => s
  | .save =>
    match s.work with
    | some (.process l []) =>
      { s with row := s.row.map fun row => { row with messages := l.messages }, work := some (.run l) }
    | some (.resumed messages []) =>
      { s with row := s.row.map fun row => { row with messages, pending := none }, work := some .spawned }
    | _ => s
  | .resume result =>
    match s.row with
    | some row =>
      match row.status, row.pending with
      | .waitingApproval, some p =>
        { s with
          row := some { row with status := .running }
          work := result.map fun content => .resumed (row.messages ++ [.tool p.callId content]) p.remaining }
      | _, _ => s
    | none => s
  | .crash => { s with work := none }

end Smara.Server.Sessions
