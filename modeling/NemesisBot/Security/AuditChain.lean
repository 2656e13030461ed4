import NemesisBot.Lib.Runs
import NemesisBot.Lib.Strings

/-! The audit chain: event hashing, verification, appending with segment rotation,
and what `load_segments` rebuilds after a restart. SHA-256 with its hex rendering is
a parameter, and so is the JSON line format. -/
namespace NemesisBot.AuditChain

structure AuditEvent where
  id : String
  timestamp : String
  operation : String
  toolName : String
  user : String
  source : String
  target : String
  decision : String
  reason : String
  hash : String
  prevHash : String
  sign : Option String
  hashVersion : Nat
deriving DecidableEq, Repr

/-- What the caller, the clock and the uuid generator supply to one append. -/
structure Entry where
  id : String
  timestamp : String
  operation : String
  toolName : String
  user : String
  source : String
  target : String
  decision : String
  reason : String
  sign : Option String := none
deriving DecidableEq, Repr

/-- The bytes fed to the hasher by successive `update` calls. -/
def updates : List String → ByteArray
  | [] => ByteArray.empty
  | s :: ss => s.toUTF8 ++ updates ss

def hashFields (e : AuditEvent) : List String :=
  [e.prevHash, e.timestamp, e.operation, e.toolName, e.user, e.target, e.decision] ++
    if 1 ≤ e.hashVersion then [e.source, e.reason] else []

def computeEventHash (sha256 : ByteArray → String) (e : AuditEvent) : String :=
  sha256 (updates (hashFields e))

/-- The loop of `verify_chain`; `prev` is the event at index `i - 1`. -/
def verifyAfter (sha256 : ByteArray → String) : Option AuditEvent → List AuditEvent → Bool
  | _, [] => true
  | prev, e :: es =>
    if prev.any (fun p => e.prevHash != p.hash) then false
    else if e.hashVersion > 1 then false
    else if computeEventHash sha256 e != e.hash then false
    else verifyAfter sha256 (some e) es

def verifyChain (sha256 : ByteArray → String) (events : List AuditEvent) : Bool :=
  verifyAfter sha256 none events

theorem verifyAfter_cons (sha256 : ByteArray → String) (prev : Option AuditEvent)
    (e : AuditEvent) (es : List AuditEvent) :
    verifyAfter sha256 prev (e :: es) = true ↔
      (∀ p, prev = some p → e.prevHash = p.hash) ∧ e.hashVersion ≤ 1 ∧
      computeEventHash sha256 e = e.hash ∧ verifyAfter sha256 (some e) es = true := by
  cases prev <;> simp [verifyAfter]

theorem verifyAfter_append (sha256 : ByteArray → String) (prev : Option AuditEvent)
    (es : List AuditEvent) (e : AuditEvent) :
    verifyAfter sha256 prev (es ++ [e]) = true ↔
      verifyAfter sha256 prev es = true ∧
      (∀ p, es.getLast?.or prev = some p → e.prevHash = p.hash) ∧
      e.hashVersion ≤ 1 ∧ computeEventHash sha256 e = e.hash := by
  induction es generalizing prev with
  | nil =>
    rw [List.nil_append, verifyAfter_cons]
    simp [verifyAfter]
  | cons x xs ih =>
    have hl : (x :: xs).getLast?.or prev = xs.getLast?.or (some x) := by
      cases h : xs.getLast? <;> simp [List.getLast?_cons, h]
    rw [List.cons_append, verifyAfter_cons, ih, verifyAfter_cons, hl]
    tauto

/-! File names. `storage_path` is its parent directory and its file name; the parent
of a bare relative name is the empty path. -/

/-- Split a file name before its last dot; a leading dot does not start an extension. -/
def splitExt (name : List Char) : List Char × List Char :=
  let ext := name.reverse.takeWhile (· ≠ '.')
  let stem := (name.reverse.dropWhile (· ≠ '.')).drop 1
  if ext.length = name.length ∨ stem = [] then (name, [])
  else (stem.reverse, '.' :: ext.reverse)

structure AuditChainConfig where
  parent : List Char
  fileName : List Char
  maxEventsPerSegment : Nat

def AuditChainConfig.stem (cfg : AuditChainConfig) : List Char := (splitExt cfg.fileName).1
def AuditChainConfig.ext (cfg : AuditChainConfig) : List Char := (splitExt cfg.fileName).2

def segTag : List Char := ['_', 's', 'e', 'g']

/-- The format `{:04}`. -/
def pad4 (n : Nat) : List Char :=
  List.replicate (4 - (Nat.toDigits 10 n).length) '0' ++ Nat.toDigits 10 n

def segmentPath (cfg : AuditChainConfig) (seg : Nat) : List Char :=
  if seg = 1 then cfg.fileName else cfg.stem ++ segTag ++ pad4 seg ++ cfg.ext

/-- The order in which paths of one directory sort, by code point. -/
def nameLe : List Char → List Char → Bool
  | [], _ => true
  | _ :: _, [] => false
  | a :: as, b :: bs => decide (a < b) || (a == b && nameLe as bs)

/-! The directory holds the files with their lines; `writeln!` adds one line because
the JSON text of an event has no raw line break. -/

variable {Line : Type}

/-- The JSON line format: what one event is written as, and what a line reads back as. -/
structure LineFormat (Line : Type) where
  toJson : AuditEvent → Line
  fromJson : Line → Option AuditEvent
  fromJson_toJson : ∀ e, fromJson (toJson e) = some e

abbrev Files (Line : Type) := List (List Char × List Line)

def appendLine (name : List Char) (line : Line) : Files Line → Files Line
  | [] => [(name, [line])]
  | (n, ls) :: fs =>
    if n = name then (n, ls ++ [line]) :: fs else (n, ls) :: appendLine name line fs

def fileLines (name : List Char) : Files Line → List Line
  | [] => []
  | (n, ls) :: fs => if n = name then ls else fileLines name fs

def isSegmentName (cfg : AuditChainConfig) (name : List Char) : Bool :=
  decide (cfg.stem <+: name) && decide (segTag <:+: name)

/-- `read_dir` of the empty path is an error, so a bare file name lists nothing. -/
def readDir (cfg : AuditChainConfig) (fs : Files Line) : List (List Char) :=
  if cfg.parent = [] then [] else fs.map Prod.fst

def collectSegmentFiles (cfg : AuditChainConfig) (fs : Files Line) : List (List Char) :=
  (if cfg.fileName ∈ fs.map Prod.fst then [cfg.fileName] else []) ++
    ((readDir cfg fs).filter (isSegmentName cfg)).mergeSort nameLe

def readEvents (fmt : LineFormat Line) (cfg : AuditChainConfig) (fs : Files Line) :
    List AuditEvent :=
  (collectSegmentFiles cfg fs).flatMap fun name => (fileLines name fs).filterMap fmt.fromJson

def zeroHash : String := String.ofList (List.replicate 64 '0')

/-- The process state of `AuditChain` together with the directory it writes. -/
structure State (Line : Type) where
  lastHash : String
  eventCount : Nat
  segmentCount : Nat
  totalEvents : Nat
  files : Files Line

/-- `AuditChain::new` over a directory. -/
def fresh (fs : Files Line) : State Line := ⟨zeroHash, 0, 1, 0, fs⟩

def newEvent (sha256 : ByteArray → String) (prevHash : String) (x : Entry) : AuditEvent where
  id := x.id
  timestamp := x.timestamp
  operation := x.operation
  toolName := x.toolName
  user := x.user
  source := x.source
  target := x.target
  decision := x.decision
  reason := x.reason
  hash := sha256 (updates [prevHash, x.timestamp, x.operation, x.toolName, x.user, x.target,
    x.decision, x.source, x.reason])
  prevHash := prevHash
  sign := x.sign
  hashVersion := 1

def rotateSegment (s : State Line) : State Line :=
  { s with eventCount := 0, segmentCount := s.segmentCount + 1 }

/-- The write succeeds; the event is returned to the caller. -/
def appendWithSign (sha256 : ByteArray → String) (fmt : LineFormat Line)
    (cfg : AuditChainConfig) (s : State Line) (x : Entry) : State Line × AuditEvent :=
  let e := newEvent sha256 s.lastHash x
  let s' : State Line :=
    { s with
      lastHash := e.hash
      eventCount := s.eventCount + 1
      totalEvents := s.totalEvents + 1
      files := appendLine (segmentPath cfg s.segmentCount) (fmt.toJson e) s.files }
  (if s'.eventCount ≥ cfg.maxEventsPerSegment then rotateSegment s' else s', e)

/-- `load_segments`: only the last hash and the total are rebuilt. -/
def loadSegments (fmt : LineFormat Line) (cfg : AuditChainConfig) (s : State Line) :
    State Line :=
  match (readEvents fmt cfg s.files).getLast? with
  | some e => { s with lastHash := e.hash, totalEvents := (readEvents fmt cfg s.files).length }
  | none => s

inductive Act where
  | append (x : Entry)
  | restart

/-- A chain with the events its `append` calls have returned so far, over all restarts. -/
structure Trace (Line : Type) where
  state : State Line
  returned : List AuditEvent

def start : Trace Line := ⟨fresh [], []⟩

def step (sha256 : ByteArray → String) (fmt : LineFormat Line) (cfg : AuditChainConfig)
    (t : Trace Line) : Act → Option (Trace Line)
  | .append x =>
    let (s, e) := appendWithSign sha256 fmt cfg t.state x
    some ⟨s, t.returned ++ [e]⟩
  | .restart => some ⟨loadSegments fmt cfg (fresh t.state.files), t.returned⟩

theorem computeEventHash_newEvent (sha256 : ByteArray → String) (prevHash : String)
    (x : Entry) :
    computeEventHash sha256 (newEvent sha256 prevHash x) = (newEvent sha256 prevHash x).hash := by
  simp [computeEventHash, hashFields, newEvent]

/-- A digest that renders every byte, for concrete runs. -/
def byteText (b : ByteArray) : String :=
  String.ofList (b.data.toList.map fun x => Char.ofNat x.toNat)

end NemesisBot.AuditChain
