import NemesisBot.Cluster.TransferSink
import NemesisBot.Lib.Runs

/-! Pushes of directories to one sink, over a channel that may lose, delay and repeat requests and
replies: what was sent can arrive at any later time, any number of times or never. Calls of the
sink come one after another, and a crash can fall between any two of its writes. -/
namespace NemesisBot.Transfer
open Strings FileTree ExecWorkspace

inductive PushDirOutcome where
  | delivered
  | nothingToSend
  | overlimit (totalBytes limit : Nat)
  deriving DecidableEq

inductive TransferCall where
  | begin
  | chunk (req : TransferChunk)
  | finish
  deriving DecidableEq

inductive TransferReply where
  | begin (reply : TransferBeginReply)
  | chunk (reply : Except Text Unit)
  | finish (reply : Except Text TransferEndReply)
  deriving DecidableEq

/-- Waiting for the answer to a call, with the chunks to send after it. -/
inductive PushPhase where
  | waiting (call : TransferCall) (todo : List Nat)
  | over (result : Except Text PushDirOutcome)

/-- A push under way or over. `sent` are its calls, which stay on the wire, `answers` the replies
made to them while it lasts. `seen`: since it began, the inbox directory of its task has held
exactly its content. -/
structure Push where
  request : TransferBegin
  phase : PushPhase
  sent : List TransferCall
  answers : List (TransferCall × TransferReply)
  seen : Bool

def Push.isOpen (p : Push) : Bool :=
  match p.phase with
  | .waiting _ _ => true
  | .over _ => false

/-- `landed` are the contents that the inbox has held so far. -/
structure State where
  sink : Sink
  pushes : List Push
  landed : List TransferBegin

def State.empty : State := ⟨Sink.empty, [], []⟩

/-- What a push is started with. -/
structure PushInput where
  taskId : Text
  tree : SourceTree
  maxBytes : Nat
  chunkSize : Nat

inductive Label where
  | start (input : PushInput)
  | deliver (push : Nat) (call : TransferCall)
  | crash (push : Nat) (call : TransferCall) (torn : Torn) (writes : Nat)
  | receive (push : Nat) (reply : TransferReply) (read : Option ByteArray)
  | fail (push : Nat) (error : Text)
  | sweep (names : List Text)
  | crashSweep (names : List Text) (torn : Torn) (name : Text)
  | sweepLanded (names : List Text)
  | crashSweepLanded (names : List Text) (torn : Torn) (name : Text)
  | sweepDone (names : List Text)
  | restart

variable (cfg : SinkConfig)

def transferIdOf (taskId hash : Text) (chunkSize : Nat) : Text :=
  sanitizeTransferId taskId ++ '-' :: (hash.take 12 ++ '-' :: decimal chunkSize)

def beginRequest (input : PushInput) (files : List TransferFileEntry) : Option TransferBegin :=
  (chunkCount files input.chunkSize).map fun count =>
    { transferId := transferIdOf input.taskId (contentHash cfg.env files) input.chunkSize
      taskId := input.taskId
      totalBytes := (files.map TransferFileEntry.size).sum
      chunkSize := input.chunkSize
      chunkCount := count
      files
      contentHash := contentHash cfg.env files }

/-- `push_transfer_dir` up to its first call; over at once where there is nothing to call. -/
def startPush (input : PushInput) : Option (TransferBegin ⊕ Except Text PushDirOutcome) :=
  match collectDirFiles cfg.env input.tree with
  | .error e => some (.inr (.error e))
  | .ok files =>
    let total := (files.map TransferFileEntry.size).sum
    if files = [] then some (.inr (.ok .nothingToSend))
    else if 0 < input.maxBytes ∧ input.maxBytes < total then
      some (.inr (.ok (.overlimit total input.maxBytes)))
    else (beginRequest cfg input files).map .inl

/-- The chunks that are still to be sent, file by file. -/
def missing (files : List TransferFileEntry) (plan : List Chunk) (received : List Nat) :
    List Nat :=
  (List.range files.length).flatMap fun i =>
    (List.range plan.length).filter fun seq =>
      (plan[seq]?.map Chunk.file) = some i ∧ seq ∉ received

/-- The next call; `read` is what the disk gives for the chunk. -/
def nextCall (plan : List Chunk) (read : Option ByteArray) (p : Push) (todo : List Nat) :
    Option Push :=
  match todo with
  | [] => some { p with phase := .waiting .finish [], sent := .finish :: p.sent }
  | seq :: rest => match read, plan[seq]? with
    | none, _ => some { p with phase := .over (.error ("读 ".toList ++ cfg.env.osError)) }
    | some data, some c =>
      if data.size = c.len then
        let call := TransferCall.chunk ⟨p.request.transferId, seq, plan.length, data,
          cfg.env.sha256Hex data⟩
        some { p with phase := .waiting call rest, sent := call :: p.sent }
      else none
    | some _, none => none

def Push.over (p : Push) (result : Except Text PushDirOutcome) : Push :=
  { p with phase := .over result }

/-- The push goes on with the answer to the call it waits for. -/
def Push.receive (p : Push) (todo : List Nat) (reply : TransferReply) (read : Option ByteArray) :
    Option Push :=
  match reply with
  | .begin r => match r.status with
    | .dedup => some (p.over (.ok .delivered))
    | .overLimit => some (p.over (.ok (.overlimit p.request.totalBytes 0)))
    | .ok => (planChunks p.request.files p.request.chunkSize).bind fun plan =>
        nextCall cfg plan read p (missing p.request.files plan r.received)
    | .error => some (p.over (.error ("begin 异常状态 error: ".toList ++ r.error.getD [])))
  | .chunk (.error e) => some (p.over (.error e))
  | .chunk (.ok _) => (planChunks p.request.files p.request.chunkSize).bind fun plan =>
      nextCall cfg plan read p todo
  | .finish (.error e) => some (p.over (.error e))
  | .finish (.ok _) => some (p.over (.ok .delivered))

/-- A call of the sink: the sinks after its writes, and the answer. -/
def called (torn : Torn) (request : TransferBegin) (call : TransferCall) (s : Sink) :
    Option (Called TransferReply) :=
  match call with
  | .begin => (s.begin cfg torn request).map fun c => ⟨c.writes, .begin c.reply⟩
  | .chunk req => some ⟨(s.chunk cfg req).writes, .chunk (s.chunk cfg req).reply⟩
  | .finish => (s.endTransfer cfg torn request.transferId).map fun c =>
      ⟨c.writes, .finish c.reply⟩

/-- The inbox directory of the task holds exactly the files of the content: each where its path
says, with its bytes, and no other file. -/
def Holds (fs : Files) (content : TransferBegin) : Prop :=
  let files := joined (inboxDir cfg.inboxRoot content.taskId) "files".toList
  (∀ f ∈ content.files, ∃ data ∈ findFile fs files f.path,
    data.size = f.size ∧ cfg.env.sha256Hex data = f.sha256) ∧
  ∀ path ∈ fs.paths, files <+: path → ∃ f ∈ content.files, joined files f.path = path

instance (fs : Files) (content : TransferBegin) : Decidable (Holds cfg fs content) :=
  inferInstanceAs (Decidable (_ ∧ _))

/-- The pushes under way take note of what the inbox holds. -/
def State.observe (s : State) : State :=
  { s with
    pushes := s.pushes.map fun p =>
      { p with seen := p.seen || (p.isOpen && decide (Holds cfg s.sink.fs p.request)) }
    landed := (s.pushes.map Push.request).filter (fun m => Holds cfg s.sink.fs m) ++ s.landed }

def State.modify (s : State) (i : Nat) (p : Push) : State :=
  { s with pushes := s.pushes.set i p }

def act (s : State) : Label → Option State
  | .start input => (startPush cfg input).map fun started => match started with
    | .inl request =>
      { s with pushes := s.pushes ++ [⟨request, .waiting .begin [], [.begin], [], false⟩] }
    | .inr _ => s
  | .deliver i call => s.pushes[i]?.bind fun p =>
      if call ∈ p.sent then (called cfg ⟨[], false⟩ p.request call s.sink).map fun c =>
        let s := { s with sink := c.last s.sink }
        if p.isOpen then s.modify i { p with answers := (call, c.reply) :: p.answers } else s
      else none
  | .crash i call torn writes => s.pushes[i]?.bind fun p =>
      if call ∈ p.sent then (called cfg torn p.request call s.sink).bind fun c =>
        (c.states s.sink)[writes]?.map fun sink => { s with sink := sink.restart }
      else none
  | .receive i reply read => s.pushes[i]?.bind fun p => match p.phase with
    | .over _ => none
    | .waiting call todo =>
      if (call, reply) ∈ p.answers then (p.receive cfg todo reply read).map (s.modify i) else none
  | .fail i error => s.pushes[i]?.bind fun p =>
      if p.isOpen then some (s.modify i (p.over (.error error))) else none
  | .sweep names => some { s with sink := s.sink.sweepStaging cfg names }
  | .crashSweep names torn name =>
    some { s with sink := ((s.sink.sweepStaging cfg names).tearStaging cfg torn name).restart }
  | .sweepLanded names => some { s with sink := s.sink.sweepLanded cfg names }
  | .crashSweepLanded names torn name =>
    if (name :: names).all fun n => n.head? ≠ some '.' then
      let cleared := names.foldl (fun s n => s.clearLanded cfg n) s.sink
      some { s with sink := (cleared.tearLanded cfg torn name).restart }
    else none
  | .sweepDone names => some { s with sink := s.sink.sweepDone names }
  | .restart => some { s with sink := s.sink.restart }

def step (s : State) (i : Label) : Option State := (act cfg s i).map (State.observe cfg)

end NemesisBot.Transfer
