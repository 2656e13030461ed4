import NemesisBot.Cluster.TaskStore
import NemesisBot.Lib.Runs

/-! The cluster tasks in the `runs` table of `tasks.db`, which other run ledgers share.
A statement of SQLite reads and writes the whole table at once. -/
namespace NemesisBot.Taskstore
open Strings
open TaskManager hiding Task

structure RunRow where
  id : Text
  kind : Text
  title : Text
  status : Text
  action : Text
  peerId : Text
  payload : Text
  result : Option Text
  originalChannel : Text
  originalChatId : Text
  createdAt : Text
  completedAt : Option Text
  updatedAt : Text
  deriving DecidableEq

/-- The table, with the primary key `id`. -/
abbrev RunTable := Table RunRow.id

/-- The text form of JSON values, as `serde_json` writes and reads it. -/
structure JsonText (V : Type) where
  toText : V → Text
  fromStr : Text → Except Text V
  fromStr_toText : ∀ v, fromStr (toText v) = .ok v

def statusToStr : TaskStatus → Text
  | .pending => "pending".toList
  | .running => "running".toList
  | .completed => "succeeded".toList
  | .failed => "failed".toList
  | .cancelled => "cancelled".toList

def statusFromStr (s : Text) : Except Text TaskStatus :=
  if s = "pending".toList then .ok .pending
  else if s = "running".toList then .ok .running
  else if s = "succeeded".toList then .ok .completed
  else if s = "failed".toList then .ok .failed
  else if s = "cancelled".toList then .ok .cancelled
  else .error ("tasks.db unknown run status: ".toList ++ s)

theorem statusFromStr_toStr (status : TaskStatus) :
    statusFromStr (statusToStr status) = .ok status := by
  cases status <;> rfl

theorem statusToStr_injective : Function.Injective statusToStr := by
  intro a b h
  have hab : (Except.ok a : Except Text TaskStatus) = .ok b := by
    rw [← statusFromStr_toStr a, h, statusFromStr_toStr]
  exact Except.ok.inj hab

/-- Each status text is read as the status that is written so. -/
theorem statusToStr_fromStr {s : Text} {status : TaskStatus} (h : statusFromStr s = .ok status) :
    s = statusToStr status := by
  unfold statusFromStr at h
  split at h
  · rename_i hs
    cases h
    exact hs
  split at h
  · rename_i hs
    cases h
    exact hs
  split at h
  · rename_i hs
    cases h
    exact hs
  split at h
  · rename_i hs
    cases h
    exact hs
  split at h
  · rename_i hs
    cases h
    exact hs
  · cases h

def clusterTask : Text := "cluster_task".toList

/-- A run that another ledger keeps in the table. -/
def foreign (r : RunRow) : Bool := r.kind ≠ clusterTask

variable {V : Type}

structure NewRun (V : Type) where
  kind : Text
  title : Text
  action : Text
  peerId : Text
  payload : V

/-- An id that is in the table stays with the row it has. -/
def createRunWithId (json : JsonText V) (db : RunTable) (id : Text) (run : NewRun V)
    (now : Text) : RunTable :=
  db.insert
    { id := id
      kind := run.kind
      title := run.title
      status := "pending".toList
      action := run.action
      peerId := run.peerId
      payload := json.toText run.payload
      result := none
      originalChannel := []
      originalChatId := []
      createdAt := now
      completedAt := none
      updatedAt := now }

/-- `UPDATE runs SET .. WHERE id = ?1`, with the numbers of its placeholders. -/
structure UpdateSql where
  status : Nat
  result : Nat
  completedAt : Option Nat
  updatedAt : Nat
  id : Nat
  statusIn : Option (List Nat)

/-- The largest number given to a placeholder so far. -/
def UpdateSql.largest (q : UpdateSql) : Nat :=
  max q.status (max q.result (max (q.completedAt.getD 0) (max q.updatedAt q.id)))

/-- Adds `AND status IN (?,..)`: placeholders without a number follow the largest one. -/
def UpdateSql.andStatusIn (q : UpdateSql) (n : Nat) : UpdateSql :=
  { q with statusIn := some (List.range' (q.largest + 1) n) }

/-- A statement and its parameters; SQL counts them from one. -/
structure UpdateBind where
  sql : UpdateSql
  params : List (Option Text)

def UpdateBind.new (json : JsonText V) (taskId : Text) (status : TaskStatus) (result : Option V)
    (now updated : Text) : UpdateBind :=
  let terminal := isTerminalStatus status
  { sql :=
      { status := 2
        result := 3
        completedAt := if terminal then some 4 else none
        updatedAt := if terminal then 5 else 4
        id := 1
        statusIn := none }
    params := [some taskId, some (statusToStr status), result.map json.toText] ++
      (if terminal then [some now] else []) ++ [some updated] }

def UpdateBind.pushExtra (b : UpdateBind) (s : Text) : UpdateBind :=
  { b with params := b.params ++ [some s] }

/-- The value of a placeholder; one without a value is NULL. -/
def UpdateBind.bound (b : UpdateBind) (n : Nat) : Option Text := b.params[n - 1]?.join

/-- NULL equals nothing. -/
def UpdateBind.selects (b : UpdateBind) (r : RunRow) : Bool :=
  b.bound b.sql.id = some r.id &&
    match b.sql.statusIn with
    | none => true
    | some numbers => numbers.any fun n => b.bound n = some r.status

/-- The columns that are NOT NULL are bound to texts. -/
def UpdateBind.apply (b : UpdateBind) : Table.Setter RunRow.id where
  set r :=
    { r with
      status := (b.bound b.sql.status).getD r.status
      result := b.bound b.sql.result
      completedAt := match b.sql.completedAt with
        | some n => b.bound n
        | none => r.completedAt
      updatedAt := (b.bound b.sql.updatedAt).getD r.updatedAt }
  key_set _ := rfl

/-- The table and the number of rows changed. -/
def execute (db : RunTable) (b : UpdateBind) : RunTable × Nat :=
  (db.update b.selects b.apply, (db.select b.selects).length)

def rowTaskStrict (json : JsonText V) (r : RunRow) : Except Text (TaskManager.Task V) := do
  let status ← statusFromStr r.status
  let payload ← (json.fromStr r.payload).mapError ("tasks.db payload decode failed: ".toList ++ ·)
  let result ← match r.result with
    | none => pure none
    | some s => some <$>
        (json.fromStr s).mapError ("tasks.db result decode failed: ".toList ++ ·)
  pure
    { id := r.id
      status := status
      action := r.action
      peerId := r.peerId
      payload := payload
      result := result
      originalChannel := r.originalChannel
      originalChatId := r.originalChatId
      createdAt := r.createdAt
      completedAt := r.completedAt }

/-- `ORDER BY created_at, id`. -/
def createdBefore (a b : RunRow) : Bool :=
  a.createdAt < b.createdAt || (a.createdAt = b.createdAt && a.id ≤ b.id)

/-- Rows that do not decode are left out. -/
def listRows (json : JsonText V) (rows : List RunRow) : List (TaskManager.Task V) :=
  (rows.mergeSort createdBefore).filterMap fun r => (rowTaskStrict json r).toOption

namespace SqliteTaskStore

def create (json : JsonText V) (db : RunTable) (task : TaskManager.Task V) (updated : Text) :
    RunTable × Except Text Unit :=
  match db.find task.id with
  | some _ => (db, .error (taskExists task.id))
  | none =>
    (db.insert
      { id := task.id
        kind := clusterTask
        title := []
        status := statusToStr task.status
        action := task.action
        peerId := task.peerId
        payload := json.toText task.payload
        result := task.result.map json.toText
        originalChannel := task.originalChannel
        originalChatId := task.originalChatId
        createdAt := task.createdAt
        completedAt := task.completedAt
        updatedAt := updated }, .ok ())

def get (json : JsonText V) (db : RunTable) (taskId : Text) : Except Text (TaskManager.Task V) :=
  match db.find taskId with
  | some r => rowTaskStrict json r
  | none => .error (taskNotFound taskId)

def updateResult (json : JsonText V) (db : RunTable) (taskId : Text) (status : TaskStatus)
    (result : Option V) (now updated : Text) : RunTable × Except Text Unit :=
  match execute db (.new json taskId status result now updated) with
  | (_, 0) => (db, .error (taskNotFound taskId))
  | (after, _) => (after, .ok ())

def updateResultIfStatus (json : JsonText V) (db : RunTable) (taskId : Text)
    (expected : List TaskStatus) (status : TaskStatus) (result : Option V) (now updated : Text) :
    RunTable × Except Text Bool :=
  let bind := UpdateBind.new json taskId status result now updated
  let bind := { bind with sql := bind.sql.andStatusIn expected.length }
  match execute db ((expected.map statusToStr).foldl UpdateBind.pushExtra bind) with
  | (after, 0) => match db.find taskId with
    | some _ => (after, .ok false)
    | none => (after, .error (taskNotFound taskId))
  | (after, _) => (after, .ok true)

def delete (db : RunTable) (taskId : Text) : RunTable × Except Text Unit :=
  match (db.select (Table.hasKey RunRow.id taskId)).length with
  | 0 => (db, .error (taskNotFound taskId))
  | _ => (Table.delete db (Table.hasKey RunRow.id taskId), .ok ())

def listByStatus (json : JsonText V) (db : RunTable) (status : TaskStatus) : List (TaskManager.Task V) :=
  listRows json (db.select (·.status = statusToStr status))

def listAll (json : JsonText V) (db : RunTable) : List (TaskManager.Task V) := listRows json db.rows

end SqliteTaskStore

/-- The calls that the task manager and its cleanup make. -/
inductive Call (V : Type) where
  | create (task : TaskManager.Task V)
  | get (id : Text)
  | updateResult (id : Text) (status : TaskStatus) (result : Option V)
  | updateResultIfStatus (id : Text) (expected : List TaskStatus) (status : TaskStatus)
      (result : Option V)
  | delete (id : Text)
  | listByStatus (status : TaskStatus)
  | listAll

inductive Answer (V : Type) where
  | done (r : Except Text Unit)
  | task (r : Except Text (TaskManager.Task V))
  | changed (r : Except Text Bool)
  | tasks (r : List (TaskManager.Task V))

/-- The same value, lists up to their order. -/
def Answer.Same : Answer V → Answer V → Prop
  | .tasks a, .tasks b => a.Perm b
  | a, b => a = b

def inMemoryCall (s : InMemoryTaskStore V) (now : Text) :
    Call V → InMemoryTaskStore V × Answer V
  | .create task => ((s.create task).1, .done (s.create task).2)
  | .get id => (s, .task (s.get id))
  | .updateResult id status result =>
    ((s.updateResult id status result now).1, .done (s.updateResult id status result now).2)
  | .updateResultIfStatus id expected status result =>
    ((s.updateResultIfStatus id expected status result now).1,
      .changed (s.updateResultIfStatus id expected status result now).2)
  | .delete id => ((s.delete id).1, .done (s.delete id).2)
  | .listByStatus status => (s, .tasks (s.listByStatus status))
  | .listAll => (s, .tasks s.listAll)

open SqliteTaskStore in
def sqliteCall (json : JsonText V) (db : RunTable) (now updated : Text) :
    Call V → RunTable × Answer V
  | .create task => ((create json db task updated).1, .done (create json db task updated).2)
  | .get id => (db, .task (get json db id))
  | .updateResult id status result =>
    ((updateResult json db id status result now updated).1,
      .done (updateResult json db id status result now updated).2)
  | .updateResultIfStatus id expected status result =>
    ((updateResultIfStatus json db id expected status result now updated).1,
      .changed (updateResultIfStatus json db id expected status result now updated).2)
  | .delete id => ((delete db id).1, .done (delete db id).2)
  | .listByStatus status => (db, .tasks (listByStatus json db status))
  | .listAll => (db, .tasks (listAll json db))

end NemesisBot.Taskstore
