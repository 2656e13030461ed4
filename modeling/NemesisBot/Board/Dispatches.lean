import NemesisBot.Board.IssueStore
import NemesisBot.Lib.Runs

/-! The dispatches of issues to workers, and all calls of the store as the steps of one machine. -/
namespace NemesisBot.IssueStore
open Strings Runs

/-- The number of the next dispatch of an issue. -/
def currentGeneration (db : Db) (issueId : Nat) : Nat :=
  (db.dispatches.select fun d => d.issueId = issueId).length

/-- The check and the insert hold the connection together; the row stays when the activity cannot be
written. `sql` is the text of an error of the database. -/
def tryClaimDispatch (db : Db) (taskId : Text) (issueId : Nat) (workerId : Text) (actor : Actor)
    (audited : Bool) (sql : Text) (now : Int) : Except Text (Option Nat) × Db :=
  if hasActiveDispatch db issueId then (.ok none, db)
  else if (db.issues.find issueId).isNone || (db.dispatches.find taskId).isSome then
    (.error ("insert_dispatch: ".toList ++ sql), db)
  else
    let generation := currentGeneration db issueId
    let claimed := { db with
      dispatches := db.dispatches.insert
        ⟨taskId, issueId, workerId, .dispatched, now, none, generation⟩ }
    if audited then
      (.ok (some generation), claimed.note [.activity issueId actor "dispatched".toList
        (Json.obj [("task_id".toList, .str taskId), ("worker_id".toList, .str workerId)]).render now])
    else (.error sql, claimed)

def setOver (state : DispatchState) (now : Int) : Table.Setter DispatchRecord.taskId where
  set d := { d with state, completedAt := some now }
  key_set _ := rfl

def setRunning : Table.Setter DispatchRecord.taskId where
  set d := { d with state := .running }
  key_set _ := rfl

/-- `UPDATE issue_dispatch SET state, completed_at WHERE task_id = ? AND state IN (..) AND ..`. -/
def endDispatch (db : Db) (taskId : Text) (p : DispatchRecord → Bool) (state : DispatchState)
    (now : Int) : Option Db :=
  let hit := fun d : DispatchRecord => d.taskId = taskId && d.state.active && p d
  if db.dispatches.rows.any hit then
    some { db with dispatches := db.dispatches.update hit (setOver state now) }
  else none

def finishDispatch (db : Db) (taskId : Text) (state : DispatchState) (now : Int) :
    Except Text (Db × Bool) :=
  if state ≠ .done ∧ state ≠ .failed then
    .error ("invalid dispatch state: ".toList ++ state.asStr ++ "（可选 done/failed）".toList)
  else match endDispatch db taskId (fun _ => true) state now with
    | some db => .ok (db, true)
    | none => .ok (db, false)

/-- The dispatch that a call has ended, with its activity. -/
def auditEnd (db : Db) (taskId : Text) (actor : Actor) (action : Text) (details : Json)
    (now : Int) : Db :=
  match db.dispatches.find taskId with
  | some d => db.note [.activity d.issueId actor action details.render now]
  | none => db

def cancelDispatch (db : Db) (taskId : Text) (actor : Actor) (now : Int) :
    Db × Option DispatchRecord :=
  match endDispatch db taskId (fun _ => true) .cancelled now with
  | some db => (auditEnd db taskId actor "dispatch_cancelled".toList
      (.obj [("task_id".toList, .str taskId)]) now, db.dispatches.find taskId)
  | none => (db, none)

/-- `expected` is the generation that the caller has in mind. -/
def failDispatch (db : Db) (taskId details : Text) (expected : Option Nat) (now : Int) :
    Db × Option DispatchRecord :=
  match endDispatch db taskId (fun d => expected.all (d.generation = ·)) .failed now with
  | some db => (auditEnd db taskId (.system "board".toList) "dispatch_timeout".toList
      (.obj [("details".toList, .str details), ("task_id".toList, .str taskId)]) now,
      db.dispatches.find taskId)
  | none => (db, none)

def markDispatchRunning (db : Db) (taskId workerId : Text) : Db × Bool :=
  let hit := fun d : DispatchRecord =>
    d.taskId = taskId && d.workerId = workerId && d.state = .dispatched
  if db.dispatches.rows.any hit then
    ({ db with dispatches := db.dispatches.update hit setRunning }, true)
  else (db, false)

/-- A dispatch that never arrived: the issue goes back to where it was, past the state machine,
unless another dispatch is on its way. -/
def rollbackDispatchFailure (db : Db) (id : Nat) (prevStatus : IssueStatus)
    (prevAssignee : Option AssignmentType) (prevAssigneeId : Option Text) (actor : Actor)
    (now : Int) : Except Text (Db × Bool) :=
  match getIssue db id with
  | .error e => .error e
  | .ok old =>
    if old.status ≠ .inProgress ∨ prevStatus = .inProgress then .ok (db, false)
    else if hasActiveDispatch db id then .ok (db, false)
    else
      let back : Table.Setter Issue.id :=
        ⟨fun i => { i with
          status := prevStatus
          assignee := prevAssignee
          assigneeId := prevAssigneeId
          updatedAt := now }, fun _ => rfl⟩
      .ok ((db.setIssue id back).note [.activity id actor "dispatch_rolled_back".toList
        ("送达失败回退：in_progress → ".toList ++ prevStatus.asStr ++ "（指派恢复为 ".toList ++
          prevAssigneeId.getD "（无）".toList ++ "）".toList) now], true)

/-- The issues named have to be there. -/
def setIssueDependencies (db : Db) (issueId : Nat) (dependsOn : List Nat) : Except Text Db :=
  if (issueId :: dependsOn).all fun id => (db.issues.find id).isSome then
    .ok { db with dependencies := (db.dependencies.filter fun d => d.1 ≠ issueId) ++
      dependsOn.dedup.map fun id => (issueId, id) }
  else .error "FOREIGN KEY constraint failed".toList

/-! Runs. -/

inductive Call where
  | create (new : NewIssue)
  | update (id : Nat) (patch : IssuePatch) (actor : Actor)
  | transition (id : Nat) (dst : IssueStatus) (actor : Actor) (audited : Bool)
  | move (id : Nat) (dst : IssueStatus) (position : Int) (actor : Actor)
  | reopen (id : Nat) (actor : Actor)
  | bulkArchive (ids : List Nat) (actor : Actor)
  | assign (id : Nat) (assignee : Option AssignmentType) (assigneeId : Option Text) (actor : Actor)
  | claim (id : Nat) (claimer : Text) (actor : Actor)
  | rollbackClaim (id : Nat) (claimer : Text) (actor : Actor)
  | rollbackDecision (activityId : Nat)
  | rollbackDone (issueId : Nat) (reason : Text)
  | addActivity (issueId : Nat) (actor : Actor) (action details : Text)
  | setDependencies (issueId : Nat) (dependsOn : List Nat)
  | tryClaimDispatch (taskId : Text) (issueId : Nat) (workerId : Text) (actor : Actor)
      (audited : Bool) (sql : Text)
  | markRunning (taskId workerId : Text)
  | finish (taskId : Text) (state : DispatchState)
  | cancel (taskId : Text) (actor : Actor)
  | fail (taskId details : Text) (expected : Option Nat)
  | rollbackDispatch (id : Nat) (prevStatus : IssueStatus) (prevAssignee : Option AssignmentType)
      (prevAssigneeId : Option Text) (actor : Actor)

/-- The tables, and the dispatches of which a caller was told that it has ended them. -/
structure State where
  db : Db
  ended : List Text

/-- What a call leaves; one that fails leaves the tables as they were. -/
def keep (db : Db) : Except Text Db → Db
  | .ok db => db
  | .error _ => db

def told (s : State) (taskId : Text) (db : Db) (ended : Bool) : State :=
  ⟨db, if ended then taskId :: s.ended else s.ended⟩

variable (generate : Text → Text → Option Text)

def exec (s : State) (now : Int) : Call → State
  | .create new => { s with db := keep s.db (createIssue generate s.db new now) }
  | .update id patch actor => { s with db := keep s.db (updateIssue s.db id patch actor now) }
  | .transition id dst actor audited =>
    { s with db := keep s.db (transitionIssue s.db id dst actor audited now) }
  | .move id dst position actor =>
    { s with db := keep s.db (moveIssue s.db id dst position actor now) }
  | .reopen id actor => { s with db := keep s.db (reopenIssue s.db id actor now) }
  | .bulkArchive ids actor => { s with db := keep s.db (bulkArchiveCancelled s.db actor now ids) }
  | .assign id assignee assigneeId actor =>
    { s with db := keep s.db (assignIssue s.db id assignee assigneeId actor now) }
  | .claim id claimer actor => { s with db := keep s.db (claimIssue s.db id claimer actor now) }
  | .rollbackClaim id claimer actor =>
    { s with db := (rollbackClaim s.db id claimer actor now).1 }
  | .rollbackDecision activityId =>
    { s with db := keep s.db (rollbackDecision s.db activityId now) }
  | .rollbackDone issueId reason =>
    { s with db := keep s.db ((rollbackDoneToInReview s.db issueId reason now).map Prod.fst) }
  | .addActivity issueId actor action details =>
    { s with db := addActivity s.db issueId actor action details now }
  | .setDependencies issueId dependsOn =>
    { s with db := keep s.db (setIssueDependencies s.db issueId dependsOn) }
  | .tryClaimDispatch taskId issueId workerId actor audited sql =>
    { s with db := (tryClaimDispatch s.db taskId issueId workerId actor audited sql now).2 }
  | .markRunning taskId workerId => { s with db := (markDispatchRunning s.db taskId workerId).1 }
  | .finish taskId state => match finishDispatch s.db taskId state now with
    | .ok (db, ended) => told s taskId db ended
    | .error _ => s
  | .cancel taskId actor =>
    told s taskId (cancelDispatch s.db taskId actor now).1
      (cancelDispatch s.db taskId actor now).2.isSome
  | .fail taskId details expected =>
    told s taskId (failDispatch s.db taskId details expected now).1
      (failDispatch s.db taskId details expected now).2.isSome
  | .rollbackDispatch id prevStatus prevAssignee prevAssigneeId actor =>
    { s with db := keep s.db ((rollbackDispatchFailure s.db id prevStatus prevAssignee
        prevAssigneeId actor now).map Prod.fst) }

def step (s : State) (c : Call × Int) : Option State := some (exec generate s c.2 c.1)

end NemesisBot.IssueStore
