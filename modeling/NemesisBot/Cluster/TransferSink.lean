import NemesisBot.Cluster.Assembly

/-! The receiving side of a transfer: the staging directories, the inbox, the index of what has
landed and the receipts of transfers that are done. A call of the sink is the list of its writes,
so that a crash can come after any of them. -/
namespace NemesisBot.Transfer
open Strings FileTree ExecWorkspace

structure TransferChunk where
  transferId : Text
  seq : Nat
  total : Nat
  data : ByteArray
  sha256 : Text
  deriving DecidableEq

inductive BeginStatus where
  | ok
  | dedup
  | overLimit
  | error
  deriving DecidableEq

structure TransferBeginReply where
  status : BeginStatus
  received : List Nat
  error : Option Text
  deriving DecidableEq

/-- The reply of an `end` that went well; only such a reply is built or kept. -/
structure TransferEndReply where
  fileCount : Nat
  totalBytes : Nat
  deriving DecidableEq

structure SinkConfig where
  env : Host
  inboxRoot : List Text
  maxBytes : Nat

/-- `fs` holds the chunks and the landed files. `staging` has the staging directories by name, with
the manifest of each where it can be read. `receipts` says which inbox directories have a
`landed.json`; `index` is the dedup index in memory, `saved` the one on disk, `finished` the
receipts in `.done`. -/
structure Sink where
  fs : Files
  staging : Text → Option (Option TransferBegin)
  receipts : Text → Bool
  index : Text → Option Text
  saved : Text → Option Text
  finished : Text → Option TransferEndReply

def Sink.empty : Sink where
  fs := Tree.empty
  staging _ := none
  receipts _ := false
  index _ := none
  saved _ := none
  finished _ := none

/-- What a removal that a crash cuts short has taken, and whether the JSON file of the directory
is among it. -/
structure Torn where
  lost : List (List Text)
  jsonLost : Bool

/-- A call: the sinks after each of its writes, and what it answers. -/
structure Called (ρ : Type) where
  writes : List Sink
  reply : ρ

def Called.last {ρ : Type} (c : Called ρ) (s : Sink) : Sink := c.writes.getLastD s

/-- Where the process can die: before the first write or after any of them. -/
def Called.states {ρ : Type} (c : Called ρ) (s : Sink) : List Sink := s :: c.writes

namespace Sink

def manifest (s : Sink) (transferId : Text) : Option TransferBegin :=
  (s.staging (sanitizeTransferId transferId)).join

def stage (s : Sink) (transferId : Text) (m : Option TransferBegin) : Sink :=
  { s with staging := Function.update s.staging (sanitizeTransferId transferId) (some m) }

variable (cfg : SinkConfig)

/-- A directory of which a part is gone. -/
def without (fs : Files) (dir : List Text) (lost : List (List Text)) : Files :=
  lost.foldl (fun fs path => if dir <+: path then fs.prune path else fs) fs

def tearStaging (torn : Torn) (name : Text) (s : Sink) : Sink :=
  { s with
    fs := without s.fs (cfg.inboxRoot ++ [".staging".toList, name]) torn.lost
    staging := Function.update s.staging name
      ((s.staging name).map fun m => if torn.jsonLost then none else m) }

def clearStaging (name : Text) (s : Sink) : Sink :=
  { s with
    fs := s.fs.prune (cfg.inboxRoot ++ [".staging".toList, name])
    staging := Function.update s.staging name none }

def landedName (begin : TransferBegin) : Text := safeTaskFileName begin.taskId

def tearLanded (torn : Torn) (name : Text) (s : Sink) : Sink :=
  { s with
    fs := without s.fs (cfg.inboxRoot ++ [name]) torn.lost
    receipts := Function.update s.receipts name (s.receipts name && !torn.jsonLost) }

def clearLanded (name : Text) (s : Sink) : Sink :=
  { s with
    fs := s.fs.prune (cfg.inboxRoot ++ [name])
    receipts := Function.update s.receipts name false }

/-- The numbers of the chunks that are there with the planned length. -/
def listReceivedChunks (s : Sink) (begin : TransferBegin) : Option (List Nat) :=
  (List.range begin.chunkCount).filterM fun seq =>
    match findFile s.fs (stagingDir cfg.inboxRoot begin.transferId) (chunkName seq) with
    | none => some false
    | some data => (plannedChunkLen begin.files begin.chunkSize seq).map fun planned =>
        some data.size == planned

/-- `begin`; nothing where the arithmetic of the manifest overflows. -/
def begin (torn : Torn) (req : TransferBegin) (s : Sink) : Option (Called TransferBeginReply) :=
  if 0 < cfg.maxBytes ∧ cfg.maxBytes < req.totalBytes then
    some ⟨[], .overLimit, [], some ("传输体积 ".toList ++ decimal req.totalBytes ++
      " 字节超护栏 ".toList ++ decimal cfg.maxBytes ++ "（诚实拒绝，不截断）".toList)⟩
  else (validateManifest req).bind fun valid => match valid with
    | .error e => some ⟨[], .error, [], some e⟩
    | .ok _ =>
      if s.index req.taskId = some req.contentHash ∧ s.receipts (landedName req) then
        some ⟨[], .dedup, [], none⟩
      else if (s.manifest req.transferId).any fun m => m.contentHash = req.contentHash then
        let staged := s.stage req.transferId (some req)
        (staged.listReceivedChunks cfg req).map fun received =>
          ⟨[s.stage req.transferId none, staged], .ok, received, none⟩
      else
        let name := sanitizeTransferId req.transferId
        let cleared := s.clearStaging cfg name
        some ⟨[s.tearStaging cfg torn name, cleared, cleared.stage req.transferId none,
          cleared.stage req.transferId (some req)], .ok, [], none⟩

/-- `chunk`, from the decoded bytes on. -/
def chunk (req : TransferChunk) (s : Sink) : Called (Except Text Unit) :=
  if cfg.env.sha256Hex req.data ≠ req.sha256 then ⟨[], .error "chunk sha256 不匹配".toList⟩
  else if s.staging (sanitizeTransferId req.transferId) = none then
    ⟨[], .error "staging 不存在（begin 未到达或已被清理）".toList⟩
  else match s.manifest req.transferId with
    | none => ⟨[], .error "staging manifest 缺失（begin 未完成）".toList⟩
    | some manifest =>
      if manifest.chunkCount ≤ req.seq then
        ⟨[], .error ("块序号 ".toList ++ decimal req.seq ++ " 超出计划 ".toList ++
          decimal manifest.chunkCount ++ "（chunk_count）".toList)⟩
      else if manifest.chunkSize < req.data.size then
        ⟨[], .error ("块大小 ".toList ++ decimal req.data.size ++ " 超出计划 ".toList ++
          decimal manifest.chunkSize ++ "（chunk_size）".toList)⟩
      else match putFile s.fs (stagingDir cfg.inboxRoot req.transferId) (chunkName req.seq)
          fun _ => req.data with
        | some fs => ⟨[{ s with fs }], .ok ()⟩
        | none => ⟨[], .error ("写 staging 块失败: ".toList ++ cfg.env.osError)⟩

/-- The assembly in `out`, up to the check of the files. -/
def assembleOut (transferId : Text) (begin : TransferBegin) (fs : Files) :
    Option (Except Text Files) :=
  let st := stagingDir cfg.inboxRoot transferId
  let out := joined st "out".toList
  let filesRoot := joined out "files".toList
  let fs := fs.prune out
  if dirFails fs filesRoot then some (.error ("创建 out 失败: ".toList ++ cfg.env.osError))
  else (planChunks begin.files begin.chunkSize).bind fun plan =>
    match createEmpty cfg.env filesRoot begin.files fs with
    | .error e => some (.error e)
    | .ok fs => (writeChunks cfg.env filesRoot st begin.files 0 plan fs).map fun written => do
      let fs ← written
      verifyFiles cfg.env filesRoot fs begin.files
      .ok fs

def writeReceipt (name : Text) (s : Sink) : Sink :=
  { s with receipts := Function.update s.receipts name true }

def saveIndex (begin : TransferBegin) (s : Sink) : Sink :=
  { s with
    index := Function.update s.index begin.taskId (some begin.contentHash)
    saved := Function.update s.index begin.taskId (some begin.contentHash) }

def writeDone (name : Text) (reply : TransferEndReply) (s : Sink) : Sink :=
  { s with finished := Function.update s.finished name (some reply) }

/-- The steps of `end` after the assembly. -/
def land (torn : Torn) (transferId : Text) (begin : TransferBegin) (s : Sink) :
    Called (Except Text TransferEndReply) :=
  let name := landedName begin
  let landed := inboxDir cfg.inboxRoot begin.taskId
  let staged := sanitizeTransferId transferId
  if (s.fs.find landed).isSome then ⟨[], .error ("清理旧收件目录失败: ".toList ++ cfg.env.osError)⟩
  else
    let torn1 := s.tearLanded cfg torn name
    let cleared := s.clearLanded cfg name
    match cleared.fs.move (joined (stagingDir cfg.inboxRoot transferId) "out".toList) landed with
    | none => ⟨[torn1, cleared], .error ("落地失败: rename ".toList ++ cfg.env.osError ++
        " / copy ".toList ++ cfg.env.osError)⟩
    | some fs =>
      let renamed := { cleared with fs }
      let receipted := renamed.writeReceipt name
      let indexed := receipted.saveIndex begin
      let reply := ⟨begin.files.length, begin.totalBytes⟩
      let done := indexed.writeDone staged reply
      ⟨[torn1, cleared, renamed, receipted, indexed, done, done.tearStaging cfg torn staged,
        done.clearStaging cfg staged], .ok reply⟩

/-- `end`. What a failed assembly leaves in `out` is not kept: the next one clears it first. -/
def endTransfer (torn : Torn) (transferId : Text) (s : Sink) :
    Option (Called (Except Text TransferEndReply)) :=
  let name := sanitizeTransferId transferId
  if s.staging name = none then match s.finished name with
    | some reply => some ⟨[], .ok reply⟩
    | none => some ⟨[], .error ("staging 不存在（transfer ".toList ++ transferId ++ "）".toList)⟩
  else match s.manifest transferId with
    | none => some ⟨[], .error ("staging manifest 缺失（transfer ".toList ++ transferId ++
        "）".toList)⟩
    | some begin => (assembleOut cfg transferId begin s.fs).map fun assembled =>
        match assembled with
        | .error e => ⟨[], .error e⟩
        | .ok fs =>
          let c := { s with fs }.land cfg torn transferId begin
          ⟨{ s with fs } :: c.writes, c.reply⟩

/-- `sweep_stale_staging`, over the directories that are old enough. -/
def sweepStaging (names : List Text) (s : Sink) : Sink :=
  names.foldl (fun s name => s.clearStaging cfg name) s

/-- `sweep_stale_landed`, over the directories that are old enough; hidden ones are left. -/
def sweepLanded (names : List Text) (s : Sink) : Sink :=
  let names := names.filter fun name => name.head? ≠ some '.'
  let cleared := names.foldl (fun s name => s.clearLanded cfg name) s
  if names = [] then cleared
  else
    let kept t := if safeTaskFileName t ∈ names then none else s.index t
    { cleared with index := kept, saved := kept }

/-- `sweep_stale_done_receipts`. -/
def sweepDone (names : List Text) (s : Sink) : Sink :=
  { s with finished := fun name => if name ∈ names then none else s.finished name }

/-- The process starts again. -/
def restart (s : Sink) : Sink := { s with index := s.saved }

end Sink

end NemesisBot.Transfer
