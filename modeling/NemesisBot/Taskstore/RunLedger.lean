import NemesisBot.Taskstore.Tasks

/-! The run ledger: runs and their attempts in `tasks.db`, and the funnels that keep account of the
schedulers. A funnel is a sequence of accesses, between which other threads take theirs. -/
namespace NemesisBot.Taskstore.Ledger
open Strings Runs

structure AttemptRow where
  id : Nat
  runId : Text
  seq : Nat
  worker : Text
  status : Text
  startedAt : Text
  finishedAt : Option Text
  error : Option Text
  usageJson : Option Text
  deriving DecidableEq

/-- Both tables. `lastRowid` is the largest id given to an attempt. -/
structure Db where
  runs : RunTable
  attempts : List AttemptRow
  lastRowid : Nat

def Db.empty : Db := ⟨Table.empty, [], 0⟩

def pending : Text := "pending".toList

def running : Text := "running".toList

def succeeded : Text := "succeeded".toList

def failed : Text := "failed".toList

def cancelled : Text := "cancelled".toList

def runStatuses : List Text := [pending, running, succeeded, failed, cancelled]

def isTerminalStr (s : Text) : Bool := s = succeeded || s = failed || s = cancelled

variable {V : Type} (json : JsonText V)

/-- `SET status = ?2, completed_at = CASE .. END, updated_at = ?3`. -/
def setStatus (status now : Text) : Table.Setter RunRow.id where
  set r := { r with
    status
    completedAt := if isTerminalStr status ∧ r.status ≠ status then some now else r.completedAt
    updatedAt := now }
  key_set _ := rfl

/-- The status it has already, or any before a final one. -/
def mayBecome (status : Text) (r : RunRow) : Bool :=
  r.status = status || !isTerminalStr r.status

def setRunStatus (db : Db) (runId status now : Text) : Except Text Unit × Db :=
  if status ∉ runStatuses then (.error ("invalid run status: ".toList ++ status), db)
  else
    let hit := fun r : RunRow => r.id = runId && mayBecome status r
    if db.runs.rows.any hit then (.ok (), { db with runs := db.runs.update hit (setStatus status now) })
    else match db.runs.find runId with
      | none => (.error ("run not found: ".toList ++ runId), db)
      | some r =>
        if isTerminalStr r.status ∧ r.status ≠ status then
          (.error ("run ".toList ++ runId ++ " is terminal (".toList ++ r.status ++
            "); refusing transition to ".toList ++ status), db)
        else (.ok (), db)

/-- The attempts of a run, in the order of their numbers. -/
def attemptsOf (db : Db) (runId : Text) : List AttemptRow :=
  (db.attempts.filter fun a => a.runId = runId).mergeSort fun a b => a.seq ≤ b.seq

def nextSeq (db : Db) (runId : Text) : Nat :=
  (((db.attempts.filter fun a => a.runId = runId).map AttemptRow.seq).max?.getD 0) + 1

def beginAttempt (db : Db) (runId worker now : Text) : Except Text Nat × Db :=
  match db.runs.find runId with
  | none => (.error ("run not found: ".toList ++ runId), db)
  | some r =>
    if isTerminalStr r.status then
      (.error ("run ".toList ++ runId ++ " is terminal (".toList ++ r.status ++
        "); refusing new attempt".toList), db)
    else
      let id := db.lastRowid + 1
      (.ok id, { db with
        attempts := db.attempts ++
          [⟨id, runId, nextSeq db runId, worker, running, now, none, none, none⟩]
        lastRowid := id })

def finishAttempt (db : Db) (attemptId : Nat) (status now : Text) (error : Option Text)
    (usage : Option Text) : Except Text Unit × Db :=
  if !isTerminalStr status then
    (.error ("invalid attempt finish status: ".toList ++ status ++
      "（只能终态收口：succeeded/failed/cancelled）".toList), db)
  else
    let hit := fun a : AttemptRow => a.id = attemptId && a.status = running
    let set := fun a : AttemptRow =>
      { a with status := status, finishedAt := some now, error := error, usageJson := usage }
    if db.attempts.any hit then
      (.ok (), { db with attempts := db.attempts.map fun a => if hit a then set a else a })
    else (.error ("attempt not found or already finished: ".toList ++
      Nat.toDigits 10 attemptId), db)

/-- The open runs of a kind. -/
def listOpenRuns (db : Db) (kind : Text) : List RunRow :=
  (db.runs.select fun r => r.kind = kind && (r.status = pending || r.status = running)).mergeSort
    fun a b => a.createdAt ≤ b.createdAt

/-! The funnels. -/

/-- What a funnel still has to do, one access each. `settles` when the run's own status follows
its attempts. -/
inductive Todo (V : Type) where
  | create (runId : Text) (run : NewRun V) (worker : Text)
  | markRunning (runId worker : Text)
  | lookOpen (runId worker : Text)
  | attempt (runId worker : Text)
  | scan (runId status : Text) (error : Option Text) (settles : Bool)
  | finish (id : Nat) (ids : List Nat) (runId status : Text) (error : Option Text)
      (settles : Bool)
  | settle (runId status : Text)
  | listOpen

/-- The calls of the schedulers. -/
inductive Funnel (V : Type) where
  | beginRun (runId kind title worker : Text) (payload : V)
  | settleRun (runId status : Text) (error : Option Text)
  | beginClusterAttempt (taskId worker : Text)
  | finishClusterAttempt (taskId status : Text) (error : Option Text)
  | sweepRestartOrphans

def Funnel.todo : Funnel V → List (Todo V)
  | .beginRun runId kind title worker payload =>
    [.create runId ⟨kind, title, "run".toList, worker, payload⟩ worker]
  | .settleRun runId status error => [.scan runId status error true]
  | .beginClusterAttempt taskId worker => [.attempt taskId worker]
  | .finishClusterAttempt taskId status error => [.scan taskId status error false]
  | .sweepRestartOrphans => [.listOpen]

/-- The end of `finish_open_attempts`. -/
def afterAttempts (runId status : Text) : Bool → List (Todo V)
  | true => [.settle runId status]
  | false => []

def finishOpenAttempts (runId status : Text) (error : Option Text) (settles : Bool) :
    List Nat → List (Todo V)
  | [] => afterAttempts runId status settles
  | id :: ids => [.finish id ids runId status error settles]

/-- An access and what follows it. `ok` when the database answers; without an answer nothing is
written. -/
def Todo.exec (db : Db) (ok : Bool) (now : Text) : Todo V → Db × List (Todo V)
  | .create runId run worker =>
    if ok then
      ({ db with runs := createRunWithId json db.runs runId run now }, [.markRunning runId worker])
    else (db, [])
  | .markRunning runId worker =>
    if ok then match setRunStatus db runId running now with
      | (.ok _, db) => (db, [.lookOpen runId worker])
      | (.error _, db) => (db, [])
    else (db, [])
  | .lookOpen runId worker =>
    if ok && (attemptsOf db runId).any fun a => a.status = running then (db, [])
    else (db, [.attempt runId worker])
  | .attempt runId worker => (if ok then (beginAttempt db runId worker now).2 else db, [])
  | .scan runId status error settles =>
    if ok then (db, finishOpenAttempts runId status error settles
      (((attemptsOf db runId).filter fun a => a.status = running).map AttemptRow.id))
    else (db, afterAttempts runId status settles)
  | .finish id ids runId status error settles =>
    (if ok then (finishAttempt db id status now error none).2 else db,
      finishOpenAttempts runId status error settles ids)
  | .settle runId status => (if ok then (setRunStatus db runId status now).2 else db, [])
  | .listOpen =>
    if ok then (db, (listOpenRuns db "cron_job".toList).map fun r =>
      .scan r.id failed (some "gateway restart".toList) true)
    else (db, [])

/-- The database and the threads that use it. -/
structure State (V : Type) where
  db : Db
  threads : List (List (Todo V))

def State.init : State V := ⟨Db.empty, []⟩

/-- What happens: a thread enters a funnel or takes its next access, the store of the cluster tasks
takes a call on the same table, the gateway dies. -/
inductive Label (V : Type) where
  | call (funnel : Funnel V)
  | access (i : Nat) (ok : Bool) (now : Text)
  | store (call : Call V) (now updated : Text)
  | restart

def step (s : State V) : Label V → Option (State V)
  | .call funnel => some { s with threads := s.threads ++ [funnel.todo] }
  | .access i ok now => match s.threads[i]? with
    | some (todo :: rest) =>
      let done := todo.exec json s.db ok now
      some ⟨done.1, s.threads.set i (done.2 ++ rest)⟩
    | _ => none
  | .store call now updated =>
    some { s with db := { s.db with runs := (sqliteCall json s.db.runs now updated call).1 } }
  | .restart => some { s with threads := [] }

end NemesisBot.Taskstore.Ledger
