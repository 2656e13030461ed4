import NemesisBot.Cluster.Outbox
import NemesisBot.Cluster.TaskStore

/-! The push loop of the outbox: backoff, dead letters and their replay. The entries are files; each
read and each write is a step, and the worker may die between any two. -/
namespace NemesisBot.Outbox.Loop
open Strings Transfer Runs
open TaskManager (Clock)

def pushBackoffBaseSecs : Nat := 15

def pushBackoffCapSecs : Nat := 600

def deadLetterAgeSecs : Int := 7 * 24 * 3600

def deadLetterMaxAttempts : Nat := 1000

/-- Instants count nanoseconds. -/
def nanos : Int := 1000000000

def numSeconds (d : Int) : Int := d.tdiv nanos

def pushBackoffSecs (attempts : Nat) : Nat :=
  min (pushBackoffBaseSecs * 2 ^ min (attempts - 1) 6) pushBackoffCapSecs

variable {C : Type}

structure Entry (C : Type) extends OutboxEntry C where
  createdAt : Text
  attempts : Nat
  lastError : Option Text
  nextRetryAt : Option Text

/-- The name of its directory. -/
def Entry.dir (e : Entry C) : Text := sanitizeTransferId e.taskId

abbrev Entries (C : Type) := Table (Entry.dir (C := C))

/-- In the order of their creation. -/
def listEntries (entries : Entries C) : List (Entry C) :=
  entries.rows.mergeSort fun a b => a.createdAt ≤ b.createdAt

def listDeadLetterEntries (entries : Entries C) : List (Entry C) :=
  (entries.select fun e => e.state = .dead).mergeSort fun a b => a.createdAt ≤ b.createdAt

def entryAgeSecs (clock : Clock) (e : Entry C) (now : Int) : Option Int :=
  (clock.parseFromRfc3339 e.createdAt).map fun created => numSeconds (now - created)

def deadLetterAgeDue (clock : Clock) (e : Entry C) (now : Int) : Bool :=
  (entryAgeSecs clock e now).any (deadLetterAgeSecs ≤ ·)

/-- What the loop makes of an entry. -/
inductive Verdict where
  | skips
  | dies
  | waits
  | offline
  | pushes
  deriving DecidableEq

/-- The clock is read for the age and again for the retry. -/
def judge (clock : Clock) (e : Entry C) (aged now : Int) (online : Bool) : Verdict :=
  if e.state ≠ .pending then .skips
  else if deadLetterMaxAttempts ≤ e.attempts || deadLetterAgeDue clock e aged then .dies
  else if (e.nextRetryAt.bind clock.parseFromRfc3339).any (now < ·) then .waits
  else if online then .pushes
  else .offline

def Entry.dead (e : Entry C) : Entry C := { e with state := .dead, nextRetryAt := none }

def Entry.pushing (e : Entry C) : Entry C := { e with state := .pushing }

def Entry.overLimit (e : Entry C) (total limit : Nat) : Entry C :=
  { e with
    state := .overLimit
    lastError := some ("载荷 ".toList ++ Nat.toDigits 10 total ++ " 字节超护栏 ".toList ++
      Nat.toDigits 10 limit) }

/-- `attempts.saturating_add(1)`. -/
def moreAttempts (attempts : Nat) : Nat := min (attempts + 1) (2 ^ 32 - 1)

def Entry.failed (clock : Clock) (e : Entry C) (error : Text) (now : Int) : Entry C :=
  { e with
    state := .pending
    attempts := moreAttempts e.attempts
    lastError := some error
    nextRetryAt := some (clock.toRfc3339
      (now + nanos * (pushBackoffSecs (moreAttempts e.attempts) : Int))) }

/-- The startup sweep arms an entry again. -/
def Entry.rearm (e : Entry C) (limit : Nat) : Option (Entry C) :=
  match e.state with
  | .pushing => some { e with state := .pending, lastError := some "worker 重启中断续推".toList }
  | .overLimit =>
    if limit = 0 ∨ e.totalBytes ≤ limit then
      some { e with state := .pending, lastError := some "护栏调大重新武装".toList }
    else none
  | _ => none

def stateWord : EntryState → Text
  | .pending => "pending".toList
  | .pushing => "pushing".toList
  | .overLimit => "over_limit".toList
  | .dead => "dead".toList

def Entry.replayed (clock : Clock) (e : Entry C) (now : Int) : Entry C :=
  { e with
    state := .pending
    attempts := 0
    nextRetryAt := none
    lastError := none
    createdAt := clock.toRfc3339 now }

/-- `io` is the text of a read or a write that fails. -/
def replayDeadLetterEntry (clock : Clock) (entries : Entries C) (taskId : Text) (now : Int)
    (ok : Bool) (io : Text) : Except Text (Entry C) × Entries C :=
  match entries.find (sanitizeTransferId taskId) with
  | none => (.error ("发件箱条目不存在或不可读: ".toList ++ io), entries)
  | some e =>
    if e.state ≠ .dead then
      (.error ("条目非死信态（当前 ".toList ++ stateWord e.state ++ "）".toList), entries)
    else if ok then (.ok (e.replayed clock now), entries.put (e.replayed clock now))
    else (.error ("entry 落盘失败: ".toList ++ io), entries)

inductive PushOutcome where
  | delivered
  | nothingToSend
  | overlimit (totalBytes limit : Nat)
  deriving DecidableEq

/-! Runs. -/

/-- The worker before its startup sweep, in it with entries to go, in a round, at a push. -/
inductive Phase (C : Type) where
  | down
  | sweeping (rest : List (Entry C))
  | round (rest : List (Entry C))
  | pushing (e : Entry C) (rest : List (Entry C))

/-- What has come to pass for the entries. -/
inductive Event (C : Type) where
  | entered (packed : OutboxEntry C) (now : Int)
  | replayed (dir : Text) (now : Int)
  | rearmed (dir : Text) (limit : Nat)
  | visited (dir : Text) (aged now : Int) (online : Bool) (verdict : Verdict) (written : Bool)
  | answered (dir : Text) (outcome : Except Text PushOutcome) (now : Int) (written : Bool)

/-- The logs and the entries on the disk, the worker, and what has happened, the latest first. -/
structure State (C : Type) where
  logs : List (Device C)
  entries : Entries C
  phase : Phase C
  log : List (Event C)

def State.init (logs : List (Device C)) : State C := ⟨logs, Table.empty, .down, []⟩

/-- What a request sees. -/
def State.box (s : State C) : Outbox.State C :=
  ⟨s.logs, fun dir => (s.entries.find dir).map Entry.toOutboxEntry⟩

/-- The entry that a request has packed, if there was none. -/
def State.enter (clock : Clock) (s : State C) (taskId : Text) (box : Outbox.State C)
    (now : Int) : State C :=
  match s.entries.find (sanitizeTransferId taskId), box.entries (sanitizeTransferId taskId) with
  | none, some packed =>
    { s with
      entries := s.entries.insert
        { packed with
          createdAt := clock.toRfc3339 now
          attempts := 0
          lastError := none
          nextRetryAt := none }
      log := .entered packed now :: s.log }
  | _, _ => s

/-- The loop comes to an entry. -/
def State.visit (clock : Clock) (s : State C) (e : Entry C) (rest : List (Entry C))
    (aged now : Int) (online ok : Bool) : State C :=
  let verdict := judge clock e aged now online
  let log := .visited e.dir aged now online verdict ok :: s.log
  match verdict, ok with
  | .skips, _ => { s with phase := .round rest }
  | .dies, true => { s with entries := s.entries.put e.dead, phase := .round rest, log }
  | .pushes, true =>
    { s with entries := s.entries.put e.pushing, phase := .pushing e.pushing rest, log }
  | _, _ => { s with phase := .round rest, log }

/-- A push has come to its end. After a success the entry's directory is removed. -/
def State.answer (clock : Clock) (s : State C) (e : Entry C) (rest : List (Entry C))
    (outcome : Except Text PushOutcome) (now : Int) (ok : Bool) : State C :=
  let entries := match outcome with
    | .ok .delivered | .ok .nothingToSend => s.entries.delete (Table.hasKey Entry.dir e.dir)
    | .ok (.overlimit total limit) => s.entries.put (e.overLimit total limit)
    | .error error => s.entries.put (e.failed clock error now)
  { s with
    entries := if ok then entries else s.entries
    phase := .round rest
    log := .answered e.dir outcome now ok :: s.log }

/-- What happens. `ok` when the disk takes the write of a step. Replays come one at a time. -/
inductive Label (C : Type) where
  | enqueue (taskId sourceNode : Text) (changes : Option (Changes C)) (now : Int)
  | pull (taskId : Text) (assembling : Bool) (now : Int)
  | relog (logs : List (Device C))
  | replay (taskId : Text) (now : Int) (ok : Bool) (io : Text)
  | boot
  | rearm (limit : Nat) (ok : Bool)
  | tick
  | visit (aged now : Int) (online ok : Bool)
  | answer (outcome : Except Text PushOutcome) (now : Int) (ok : Bool)
  | restart

variable (clock : Clock) (measure : C → Option (Changes C) → Except Text Nat)

def step (s : State C) : Label C → Option (State C)
  | .enqueue taskId sourceNode changes now => some (s.enter clock taskId
      (enqueueWithChangeset measure s.box taskId sourceNode changes).2 now)
  | .pull taskId assembling now =>
    some (s.enter clock taskId (requestPull measure s.box taskId assembling).2 now)
  | .relog logs => some { s with logs }
  | .replay taskId now ok io => match replayDeadLetterEntry clock s.entries taskId now ok io with
    | (.ok e, entries) => some { s with entries, log := .replayed e.dir now :: s.log }
    | (.error _, _) => some s
  | .boot => match s.phase with
    | .down => some { s with phase := .sweeping (listEntries s.entries) }
    | _ => none
  | .rearm limit ok => match s.phase with
    | .sweeping (e :: rest) => match e.rearm limit, ok with
      | some armed, true => some
        { s with
          entries := s.entries.put armed
          phase := .sweeping rest
          log := .rearmed e.dir limit :: s.log }
      | _, _ => some { s with phase := .sweeping rest }
    | _ => none
  | .tick => match s.phase with
    | .sweeping [] | .round [] => some { s with phase := .round (listEntries s.entries) }
    | _ => none
  | .visit aged now online ok => match s.phase with
    | .round (e :: rest) => some (s.visit clock e rest aged now online ok)
    | _ => none
  | .answer outcome now ok => match s.phase with
    | .pushing e rest => some (s.answer clock e rest outcome now ok)
    | _ => none
  | .restart => some { s with phase := .down }

end NemesisBot.Outbox.Loop
