import NemesisBot.Lib.Json
import NemesisBot.Lib.Runs
import NemesisBot.Lib.Table
import NemesisBot.Utils.Sanitize

/-! Continuation snapshots in memory and in files of one directory. Each label is one access
to the locked map or to the directory, so that the operations interleave between them. -/
namespace NemesisBot.ContinuationStore
open Strings Runs

structure ContinuationSnapshot where
  taskId : Text
  messages : Json
  toolCallId : Text
  channel : Text
  chatId : Text
  ready : Bool
  createdAt : Text

inductive ContinuationError where
  | io
  | notFound (taskId : Text)
  deriving DecidableEq

/-- An entry of the map. -/
structure Entry where
  key : Text
  snapshot : ContinuationSnapshot

/-- A file `{stem}.json`; every one is written whole by `save`. -/
structure File where
  stem : Text
  snapshot : ContinuationSnapshot
  modified : Int

/-- `safe_task_file_name` -/
def fileStem (taskId : Text) : Text := Sanitize.sanitizePathSegment taskId

/-- Milliseconds after which a temporary file counts as left behind. -/
def atomicTmpOrphanGrace : Int := 3600000

def maxRetries : Nat := 50

inductive Operation where
  | save (snapshot : ContinuationSnapshot)
  | load (taskId : Text)
  | remove (taskId : Text)
  | cleanupOld (maxAge : Nat)
  | listPending
  | recoverFromDisk

/-- A walk over the directory with what has been read of it and the count so far. -/
structure Walk where
  found : List Text
  count : Nat

/-- What an operation does next. -/
inductive Point where
  /-- `save`: the temporary file, its new name, the map -/
  | persist (snapshot : ContinuationSnapshot)
  | rename (snapshot : ContinuationSnapshot) (modified : Int)
  | insert (snapshot : ContinuationSnapshot)
  /-- `load`: the map, the look for temporary files, and attempts with `left` more to come -/
  | lookup (taskId : Text)
  | probe (taskId : Text)
  | recheck (taskId : Text) (left : Nat)
  | seek (taskId : Text) (left : Nat)
  | read (taskId : Text)
  | keep (taskId : Text) (snapshot : ContinuationSnapshot)
  /-- `remove`: the map, `path.exists()`, the file -/
  | forget (taskId : Text)
  | locate (taskId : Text) (removed : Bool)
  | delete (taskId : Text) (removed : Bool)
  /-- `cleanup_old`: the next entry, its age, the map, the file -/
  | sweep (cutoff : Int) (walk : Walk)
  | weigh (stem : Text) (cutoff : Int) (walk : Walk)
  | doom (stem : Text) (cutoff : Int) (walk : Walk)
  | unlink (stem : Text) (cutoff : Int) (walk : Walk)
  /-- `recover_from_disk`: the next entry, the map, the file, the map -/
  | recover (walk : Walk)
  | present (stem : Text) (walk : Walk)
  | fetch (stem : Text) (walk : Walk)
  | adopt (stem : Text) (snapshot : ContinuationSnapshot) (walk : Walk)
  /-- `list_pending`: the map, then the directory -/
  | list
  | listing (found taskIds : List Text)
  | done

/-- What is seen from outside, by the number of the operation. -/
inductive Event where
  | called (i : Nat) (operation : Operation)
  | saved (i : Nat) (snapshot : ContinuationSnapshot)
  | loaded (i : Nat) (taskId : Text) (result : Except ContinuationError ContinuationSnapshot)
  | removed (i : Nat) (taskId : Text) (result : Bool)
  /-- a clean-up goes at a file, and has deleted it -/
  | taking (i : Nat) (stem : Text)
  | took (i : Nat) (stem : Text)
  | cleaned (i : Nat) (count : Nat)
  | recovered (i : Nat) (count : Nat)
  | listed (i : Nat) (taskIds : List Text)
  | restarted

structure State where
  snapshots : Table Entry.key
  files : Table File.stem
  /-- the times of the temporary files -/
  temps : List Int
  now : Int
  ops : List Point
  /-- the latest event first -/
  log : List Event

def start : State := ⟨Table.empty, Table.empty, [], 0, [], []⟩

def State.advance (s : State) (i : Nat) (p : Point) : State := { s with ops := s.ops.set i p }

def State.record (s : State) (e : Event) : State := { s with log := e :: s.log }

def State.finish (s : State) (i : Nat) (e : Event) : State := (s.advance i .done).record e

def State.put (s : State) (key : Text) (snapshot : ContinuationSnapshot) : State :=
  { s with snapshots := s.snapshots.put ⟨key, snapshot⟩ }

def State.dropKeys (s : State) (doomed : Text → Bool) : State :=
  { s with snapshots := s.snapshots.delete fun e => doomed e.key }

def State.deleteFile (s : State) (stem : Text) : State :=
  { s with files := s.files.delete (Table.hasKey File.stem stem) }

/-- The snapshot in a file. -/
def State.onDisk (s : State) (stem : Text) : Option ContinuationSnapshot :=
  (s.files.find stem).map File.snapshot

def State.inMemory (s : State) (key : Text) : Option ContinuationSnapshot :=
  (s.snapshots.find key).map Entry.snapshot

def Operation.first (now : Int) : Operation → Point
  | .save snapshot => .persist snapshot
  | .load taskId => .lookup taskId
  | .remove taskId => .forget taskId
  | .cleanupOld maxAge => .sweep (now - maxAge) ⟨[], 0⟩
  | .listPending => .list
  | .recoverFromDisk => .recover ⟨[], 0⟩

def Walk.counted (walk : Walk) : Walk := { walk with count := walk.count + 1 }

def Walk.more (walk : Walk) (stems : List Text) : Walk := { walk with found := stems ++ walk.found }

/-- The next access of an operation; a walk goes on with `entry` and ends with `close`. -/
def State.go (s : State) (i : Nat) : Point → Option State
  | .persist snapshot =>
    some { s.advance i (.rename snapshot s.now) with temps := s.now :: s.temps }
  | .rename snapshot modified =>
    some { s.advance i (.insert snapshot) with
      temps := s.temps.erase modified
      files := s.files.put ⟨fileStem snapshot.taskId, snapshot, modified⟩ }
  | .insert snapshot => some ((s.put snapshot.taskId snapshot).finish i (.saved i snapshot))
  | .lookup taskId => match s.inMemory taskId with
    | some snapshot => some (s.finish i (.loaded i taskId (.ok snapshot)))
    | none => some (s.advance i (.probe taskId))
  | .probe taskId =>
    some (s.advance i (if s.temps = [] then .seek taskId 0 else .recheck taskId maxRetries))
  | .recheck taskId left => match s.inMemory taskId with
    | some snapshot => some (s.finish i (.loaded i taskId (.ok snapshot)))
    | none => some (s.advance i (.seek taskId left))
  | .seek taskId left =>
    if (s.onDisk (fileStem taskId)).isSome then some (s.advance i (.read taskId))
    else match left with
      | 0 => some (s.finish i (.loaded i taskId (.error (.notFound taskId))))
      | left + 1 => some (s.advance i (.recheck taskId left))
  | .read taskId => match s.onDisk (fileStem taskId) with
    | some snapshot => some (s.advance i (.keep taskId snapshot))
    | none => some (s.finish i (.loaded i taskId (.error .io)))
  | .keep taskId snapshot =>
    some ((s.put taskId snapshot).finish i (.loaded i taskId (.ok snapshot)))
  | .forget taskId =>
    some ((s.dropKeys (· = taskId)).advance i (.locate taskId (s.inMemory taskId).isSome))
  | .locate taskId removed =>
    if (s.onDisk (fileStem taskId)).isSome then some (s.advance i (.delete taskId removed))
    else some (s.finish i (.removed i taskId removed))
  | .delete taskId removed =>
    some ((s.deleteFile (fileStem taskId)).finish i (.removed i taskId removed))
  | .sweep _ _ => none
  | .weigh stem cutoff walk =>
    if (s.files.find stem).any (fun f => f.modified < cutoff) then
      some (s.advance i (.doom stem cutoff walk))
    else some (s.advance i (.sweep cutoff walk))
  | .doom stem cutoff walk =>
    some (((s.dropKeys fun k => fileStem k = stem).advance i (.unlink stem cutoff walk)).record
      (.taking i stem))
  | .unlink stem cutoff walk =>
    some (((s.deleteFile stem).advance i (.sweep cutoff walk.counted)).record (.took i stem))
  | .recover _ => none
  | .present stem walk =>
    some (s.advance i (if (s.inMemory stem).isSome then .recover walk else .fetch stem walk))
  | .fetch stem walk => match s.onDisk stem with
    | some snapshot => some (s.advance i (.adopt stem snapshot walk))
    | none => some (s.advance i (.recover walk))
  | .adopt stem snapshot walk => some ((s.put stem snapshot).advance i (.recover walk.counted))
  | .list => some (s.advance i (.listing [] (s.snapshots.rows.map Entry.key)))
  | .listing _ _ => none
  | .done => none

/-- The operating system reads on in the directory. -/
def State.refill (s : State) (i : Nat) : Point → Option State
  | .sweep cutoff walk => some (s.advance i (.sweep cutoff (walk.more stems)))
  | .recover walk => some (s.advance i (.recover (walk.more stems)))
  | .listing found taskIds => some (s.advance i (.listing (stems ++ found) taskIds))
  | _ => none
where
  stems : List Text := s.files.rows.map File.stem

/-- A walk comes to a file. -/
def State.entry (s : State) (i : Nat) (stem : Text) : Point → Option State
  | .sweep cutoff walk =>
    if stem ∈ walk.found then some (s.advance i (.weigh stem cutoff walk)) else none
  | .recover walk => if stem ∈ walk.found then some (s.advance i (.present stem walk)) else none
  | .listing found taskIds =>
    if stem ∈ found then
      some (s.advance i (.listing found (if stem ∈ taskIds then taskIds else taskIds ++ [stem])))
    else none
  | _ => none

/-- A clean-up comes to a temporary file. -/
def State.orphan (s : State) (i : Nat) (modified : Int) : Point → Option State
  | .sweep cutoff walk =>
    if modified ∈ s.temps ∧ modified < s.now - atomicTmpOrphanGrace then
      some { s.advance i (.sweep cutoff walk.counted) with temps := s.temps.erase modified }
    else none
  | _ => none

/-- A walk has no more entries. -/
def State.close (s : State) (i : Nat) : Point → Option State
  | .sweep _ walk => some (s.finish i (.cleaned i walk.count))
  | .recover walk => some (s.finish i (.recovered i walk.count))
  | .listing _ taskIds => some (s.finish i (.listed i taskIds))
  | _ => none

inductive Act where
  | call (operation : Operation)
  | go (i : Nat)
  | refill (i : Nat)
  | entry (i : Nat) (stem : Text)
  | orphan (i : Nat) (modified : Int)
  | close (i : Nat)
  | clock (now : Int)
  /-- a fresh store over the same directory -/
  | restart

def step (s : State) : Act → Option State
  | .call operation =>
    some { s with
      ops := s.ops ++ [operation.first s.now]
      log := .called s.ops.length operation :: s.log }
  | .go i => (s.ops[i]?).bind (s.go i)
  | .refill i => (s.ops[i]?).bind (s.refill i)
  | .entry i stem => (s.ops[i]?).bind (s.entry i stem)
  | .orphan i modified => (s.ops[i]?).bind (s.orphan i modified)
  | .close i => (s.ops[i]?).bind (s.close i)
  | .clock now => some { s with now := now }
  | .restart =>
    some { s with
      snapshots := Table.empty
      ops := s.ops.map fun _ => .done
      log := .restarted :: s.log }

/-- The task ids that a run uses. -/
def Act.Names (names : Set Text) : Act → Prop
  | .call (.save snapshot) => snapshot.taskId ∈ names
  | .call (.load taskId) | .call (.remove taskId) => taskId ∈ names
  | _ => True

/-! What the log promises. -/

/-- The saves of an id that are under way. -/
def savesOpen (t : Text) : List Event → List Nat
  | [] => []
  | e :: log => match e with
    | .called i (.save x) => if x.taskId = t then i :: savesOpen t log else savesOpen t log
    | .saved i _ => (savesOpen t log).filter (· ≠ i)
    | .restarted => []
    | _ => savesOpen t log

/-- The removals and clean-ups that are taking an id. -/
def takesOpen (t : Text) : List Event → List Nat
  | [] => []
  | e :: log => match e with
    | .called i (.remove id) => if id = t then i :: takesOpen t log else takesOpen t log
    | .taking i stem => if fileStem t = stem then i :: takesOpen t log else takesOpen t log
    | .removed i _ _ | .took i _ => (takesOpen t log).filter (· ≠ i)
    | .restarted => []
    | _ => takesOpen t log

inductive Standing where
  | holds (snapshot : ContinuationSnapshot)
  | gone

/-- What a file with this standing holds. -/
def Standing.file : Standing → Option ContinuationSnapshot
  | .holds x => some x
  | .gone => none

/-- The last word on an id: saved and not being taken, or taken and not being saved. -/
def standing (t : Text) : List Event → Option Standing
  | [] => none
  | e :: log => match e with
    | .called _ (.save x) => if x.taskId = t then none else standing t log
    | .called _ (.remove id) => if id = t then stillGone (standing t log) else standing t log
    | .taking _ stem =>
      if fileStem t = stem then stillGone (standing t log) else standing t log
    | .saved _ x =>
      if x.taskId = t then
        if savesOpen t (e :: log) = [] ∧ takesOpen t (e :: log) = [] then some (.holds x) else none
      else standing t log
    | .removed _ id _ =>
      if id = t then if savesOpen t (e :: log) = [] then some .gone else none
      else standing t log
    | .took _ stem =>
      if fileStem t = stem then if savesOpen t (e :: log) = [] then some .gone else none
      else standing t log
    | _ => standing t log
where
  stillGone : Option Standing → Option Standing
    | some .gone => some .gone
    | _ => none

/-- Ever since operation `i` was called the id has had this standing. -/
def Stood (t : Text) (v : Standing) (i : Nat) : List Event → Prop
  | [] => False
  | e :: log => standing t (e :: log) = some v ∧
      ((∃ operation, e = .called i operation) ∨ Stood t v i log)

/-- A load finds what was saved last and nothing of what was taken; a list leaves that out. -/
def Answers (names : Set Text) (log : List Event) : Event → Prop
  | .loaded i taskId result =>
    (∀ x, Stood taskId (.holds x) i log → result = .ok x) ∧
      (Stood taskId .gone i log → result = .error (.notFound taskId))
  | .listed i taskIds => ∀ t ∈ names, Stood t .gone i log → t ∉ taskIds ∧ fileStem t ∉ taskIds
  | _ => True

def Kept (names : Set Text) : List Event → Prop
  | [] => True
  | e :: log => Kept names log ∧ Answers names log e

/-! When the code keeps it. -/

/-- A save of this snapshot has written the file and not yet the map. -/
def State.Saving (s : State) (stem : Text) (x : ContinuationSnapshot) : Prop :=
  .insert x ∈ s.ops ∧ fileStem x.taskId = stem

/-- What goes into the map is what the file holds, or a save is about to set it right. -/
def State.Fresh (s : State) (stem : Text) (x : ContinuationSnapshot) : Prop :=
  (∃ y, s.Saving stem y) ∨ s.onDisk stem = some x

/-- No save is under way between this file and the map, which has nothing of it any more. -/
def State.Cleared (s : State) (stem : Text) : Prop :=
  (∀ y, ¬ s.Saving stem y) ∧ ∀ e ∈ s.snapshots.rows, fileStem e.snapshot.taskId ≠ stem

def Point.Careful (s : State) : Point → Prop
  | .insert x => ∃ y, s.Saving (fileStem x.taskId) y ∧ s.onDisk (fileStem x.taskId) = some y
  | .keep taskId x => s.Fresh (fileStem taskId) x
  | .adopt stem x _ => s.Fresh stem x
  | .delete taskId _ => s.Cleared (fileStem taskId)
  | .unlink stem _ _ => s.Cleared stem
  | _ => True

def Careful (s : State) : Act → Prop
  | .go i => ∀ p ∈ s.ops[i]?, p.Careful s
  | _ => True

/-- The ids have different file names, and none is the file name of another. -/
structure Apart (names : Set Text) : Prop where
  injective : Set.InjOn fileStem names
  plain : ∀ a ∈ names, ∀ b ∈ names, fileStem b = a → b = a

end NemesisBot.ContinuationStore
