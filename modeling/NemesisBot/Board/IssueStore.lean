import NemesisBot.Lib.Json
import NemesisBot.Lib.Table
import NemesisBot.Lib.Strings

/-! The board's store: issues and their life. A call is a transaction, so it is one step. -/
namespace NemesisBot.IssueStore
open Strings

inductive IssueStatus where
  | backlog
  | todo
  | inProgress
  | inReview
  | done
  | blocked
  | cancelled
  deriving DecidableEq, Repr

def IssueStatus.asStr : IssueStatus → Text
  | .backlog => "backlog".toList
  | .todo => "todo".toList
  | .inProgress => "in_progress".toList
  | .inReview => "in_review".toList
  | .done => "done".toList
  | .blocked => "blocked".toList
  | .cancelled => "cancelled".toList

def IssueStatus.allowedTargets : IssueStatus → Text
  | .backlog => "todo/in_progress/done/blocked/cancelled".toList
  | .todo => "in_progress/done/blocked/cancelled".toList
  | .inProgress => "in_review/done/blocked/cancelled".toList
  | .inReview => "in_progress/done/blocked/cancelled".toList
  | .blocked => "todo/in_progress/cancelled".toList
  | .done => "（终态）".toList
  | .cancelled => "backlog（issue.reopen）".toList

def canTransition (src dst : IssueStatus) : Bool :=
  if src = dst then false
  else match src, dst with
    | .backlog, .todo | .backlog, .inProgress | .backlog, .done | .backlog, .blocked
    | .backlog, .cancelled => true
    | .todo, .inProgress | .todo, .done | .todo, .blocked | .todo, .cancelled => true
    | .inProgress, .inReview | .inProgress, .done | .inProgress, .blocked
    | .inProgress, .cancelled => true
    | .inReview, .inProgress | .inReview, .done | .inReview, .blocked
    | .inReview, .cancelled => true
    | .blocked, .todo | .blocked, .inProgress | .blocked, .cancelled => true
    | .cancelled, .backlog => true
    | _, _ => false

def validateTransition (src dst : IssueStatus) : Except Text Unit :=
  if src = dst then .error ("issue 已处于 ".toList ++ src.asStr ++ " 状态".toList)
  else if canTransition src dst then .ok ()
  else .error ("非法状态转移 ".toList ++ src.asStr ++ " → ".toList ++ dst.asStr ++ "（".toList ++
    src.asStr ++ " 可转移到 ".toList ++ src.allowedTargets ++ "）".toList)

inductive AssignmentType where
  | managerSelf
  | worker
  deriving DecidableEq

def AssignmentType.asStr : AssignmentType → Text
  | .managerSelf => "manager_self".toList
  | .worker => "worker".toList

structure Actor where
  kind : Text
  id : Text
  deriving DecidableEq

def Actor.system (id : Text) : Actor := ⟨"system".toList, id⟩

inductive CommentType where
  | comment
  | statusChange
  | system
  | discussion
  | question
  | delivery
  deriving DecidableEq

structure Issue where
  id : Nat
  number : Text
  title : Text
  description : Text
  status : IssueStatus
  priority : Int
  assignee : Option AssignmentType
  assigneeId : Option Text
  creator : Actor
  parentIssueId : Option Nat
  projectId : Option Nat
  dueDate : Option Int
  position : Int
  acceptanceCriteria : Option Text
  hidden : Bool
  createdAt : Int
  updatedAt : Int

/-- The rows that a call leaves beside the issues. -/
inductive Note where
  | comment (issueId : Nat) (author : Actor) (content : Text) (ctype : CommentType) (time : Int)
  | activity (issueId : Nat) (actor : Actor) (action details : Text) (time : Int)
  | notification (recipient : Actor) (kind title content : Text) (issueId : Nat) (time : Int)
  | subscriber (issueId : Nat) (who : Actor) (reason : Text)

inductive DispatchState where
  | dispatched
  | running
  | done
  | failed
  | cancelled
  deriving DecidableEq, Repr

def DispatchState.asStr : DispatchState → Text
  | .dispatched => "dispatched".toList
  | .running => "running".toList
  | .done => "done".toList
  | .failed => "failed".toList
  | .cancelled => "cancelled".toList

/-- `state IN ('dispatched', 'running')`. -/
def DispatchState.active (s : DispatchState) : Bool := s = .dispatched || s = .running

structure DispatchRecord where
  taskId : Text
  issueId : Nat
  workerId : Text
  state : DispatchState
  dispatchedAt : Int
  completedAt : Option Int
  generation : Nat
  deriving DecidableEq

/-- The tables. `issueSeq` is the largest id given to an issue, `counter` the last number. -/
structure Db where
  issues : Table Issue.id
  issueSeq : Nat
  numberPrefix : Text
  counter : Nat
  projects : List Nat
  dependencies : List (Nat × Nat)
  dispatches : Table DispatchRecord.taskId
  notes : List Note

def Db.init (numberPrefix : Text) (projects : List Nat) : Db :=
  ⟨Table.empty, 0, numberPrefix, 0, projects, [], Table.empty, []⟩

def decimal (n : Nat) : Text := Nat.toDigits 10 n

def intText : Int → Text
  | .ofNat n => decimal n
  | .negSucc n => '-' :: decimal (n + 1)

def getIssue (db : Db) (id : Nat) : Except Text Issue :=
  match db.issues.find id with
  | some i => .ok i
  | none => .error ("issue ".toList ++ decimal id ++ " not found".toList)

def dependenciesOf (db : Db) (issueId : Nat) : List Nat :=
  ((db.dependencies.filter fun d => d.1 = issueId).map Prod.snd).mergeSort (· ≤ ·)

def hasActiveDispatch (db : Db) (issueId : Nat) : Bool :=
  db.dispatches.rows.any fun d => d.issueId = issueId && d.state.active

/-- `UPDATE issue SET .. WHERE id = ?`. -/
def Db.setIssue (db : Db) (id : Nat) (f : Table.Setter Issue.id) : Db :=
  { db with issues := db.issues.update (Table.hasKey Issue.id id) f }

def Db.note (db : Db) (notes : List Note) : Db := { db with notes := db.notes ++ notes }

def setStatus (status : IssueStatus) (now : Int) : Table.Setter Issue.id where
  set i := { i with status, updatedAt := now }
  key_set _ := rfl

def setAssignee (assignee : Option AssignmentType) (assigneeId : Option Text) (now : Int) :
    Table.Setter Issue.id where
  set i := { i with assignee, assigneeId, updatedAt := now }
  key_set _ := rfl

/-- Where an issue stood and stands. -/
def statusNote (src dst : IssueStatus) : Text := src.asStr ++ " → ".toList ++ dst.asStr

/-- The one an issue is assigned to hears of its new status, unless it is the actor. -/
def statusNotification (old : Issue) (note : Text) (actor : Actor) (now : Int) : List Note :=
  match old.assignee, old.assigneeId with
  | some kind, some id =>
    let assignee : Actor := ⟨kind.asStr, id⟩
    if assignee ≠ actor then
      [.notification assignee "status_changed".toList
        (old.number ++ " ".toList ++ old.title) note old.id now]
    else []
  | _, _ => []

/-- An issue that a human takes past the review. -/
def skipReviewNote (old : Issue) (dst : IssueStatus) (actor : Actor) (now : Int) : List Note :=
  if dst = .done ∧ old.status ≠ .inReview ∧ actor.kind ≠ "agent".toList then
    [.comment old.id (.system "audit".toList)
      ("⚠ 跳过评审直达完成：".toList ++ old.status.asStr ++ " → done（操作者 ".toList ++
        actor.kind ++ "/".toList ++ actor.id ++
        "）。本单未经验收链，如需正式验收请走 in_review。".toList) .system now]
  else []

/-- `audited` when the comment on a skipped review could be written; its failure is no error. -/
def transitionIssueInTx (db : Db) (old : Issue) (dst : IssueStatus) (actor : Actor)
    (audited : Bool) (now : Int) : Except Text Db :=
  match validateTransition old.status dst with
  | .error e => .error e
  | .ok _ => .ok ((db.setIssue old.id (setStatus dst now)).note
      ([.comment old.id actor (statusNote old.status dst) .statusChange now] ++
        (if audited then skipReviewNote old dst actor now else []) ++
        [.activity old.id actor "status_changed".toList
          (Json.obj [("from".toList, .str old.status.asStr),
            ("to".toList, .str dst.asStr)]).render now] ++
        statusNotification old (statusNote old.status dst) actor now))

def transitionIssue (db : Db) (id : Nat) (dst : IssueStatus) (actor : Actor) (audited : Bool)
    (now : Int) : Except Text Db :=
  match getIssue db id with
  | .error e => .error e
  | .ok old => transitionIssueInTx db old dst actor audited now

/-- The board is dragged: a new column, a new place in it, or both. -/
def moveIssue (db : Db) (id : Nat) (dst : IssueStatus) (position : Int) (actor : Actor)
    (now : Int) : Except Text Db :=
  match getIssue db id with
  | .error e => .error e
  | .ok old =>
    let set : Table.Setter Issue.id :=
      ⟨fun i => { i with status := dst, position, updatedAt := now }, fun _ => rfl⟩
    if old.status = dst then
      .ok ((db.setIssue id set).note [.activity id actor "reordered".toList
        (Json.obj [("position".toList, .num (intText position))]).render now])
    else match validateTransition old.status dst with
      | .error e => .error e
      | .ok _ => .ok ((db.setIssue id set).note
          ([.comment id actor (statusNote old.status dst) .statusChange now,
            .activity id actor "status_changed".toList
              (Json.obj [("from".toList, .str old.status.asStr),
                ("position".toList, .num (intText position)),
                ("to".toList, .str dst.asStr)]).render now] ++
            statusNotification old (statusNote old.status dst) actor now))

/-- The first upstream that is cancelled; one that is gone is an error of the database. -/
def cancelledUpstream (db : Db) : List Nat → Except Text (Option Issue)
  | [] => .ok none
  | id :: ids => match db.issues.find id with
    | none => .error "Query returned no rows".toList
    | some up => if up.status = .cancelled then .ok (some up) else cancelledUpstream db ids

def reopenIssue (db : Db) (id : Nat) (actor : Actor) (now : Int) : Except Text Db := do
  let old ← getIssue db id
  if old.status ≠ .cancelled then
    .error (old.number ++ " 当前状态为 ".toList ++ old.status.asStr ++
      "，只有已取消（cancelled）单可 reopen".toList)
  match old.parentIssueId with
  | none => pure ()
  | some parentId =>
    let parent ← getIssue db parentId
    if parent.status = .cancelled then
      .error ("父单 ".toList ++ parent.number ++
        " 已取消：子单不可单独 reopen，请先 reopen 父单".toList)
  match ← cancelledUpstream db (dependenciesOf db id) with
  | none => pure ()
  | some up => .error ("上游依赖 ".toList ++ up.number ++
      " 已取消：本单不可单独 reopen，请先恢复上游".toList)
  let db ← transitionIssueInTx db old .backlog actor true now
  let shown : Table.Setter Issue.id :=
    ⟨fun i => if i.hidden then { i with hidden := false, updatedAt := now } else i, by
      intro i
      split <;> rfl⟩
  pure ((db.setIssue id shown).note [.comment id (.system "board".toList)
    ("♻ ".toList ++ old.number ++ "「".toList ++ old.title ++ "」由 ".toList ++ actor.kind ++
      "/".toList ++ actor.id ++ " reopen：cancelled → backlog（时间见本条评论时间戳）".toList)
    .system now])

/-- One after the other, in one transaction. -/
def bulkArchiveCancelled (db : Db) (actor : Actor) (now : Int) : List Nat → Except Text Db
  | [] => .ok db
  | id :: ids => match getIssue db id with
    | .error e => .error e
    | .ok old =>
      if old.status ≠ .cancelled then
        .error ("issue ".toList ++ old.number ++ " 不是已取消单（status=".toList ++
          old.status.asStr ++ "），拒绝打 hidden 标记".toList)
      else
        let hide : Table.Setter Issue.id :=
          ⟨fun i => { i with hidden := true, updatedAt := now }, fun _ => rfl⟩
        bulkArchiveCancelled ((db.setIssue id hide).note
          [.activity id actor "issue_bulk_archive".toList ("取消单清理：".toList ++ old.number ++
            "「".toList ++ old.title ++ "」永久收起（hidden）".toList) now]) actor now ids

def displayAssignee (i : Issue) : Text :=
  match i.assignee, i.assigneeId with
  | some kind, some id => kind.asStr ++ "/".toList ++ id
  | _, _ => "（无）".toList

def assignIssue (db : Db) (id : Nat) (assignee : Option AssignmentType)
    (assigneeId : Option Text) (actor : Actor) (now : Int) : Except Text Db := do
  match assignee with
  | none => pure ()
  | some kind =>
    if trim (assigneeId.getD []) = [] then
      .error ("assignee ".toList ++ kind.asStr ++ " requires assignee_id".toList)
  if assignee.isNone ≠ assigneeId.isNone then
    .error "assignee and assignee_id must be set together".toList
  let old ← getIssue db id
  let details := match assignee, assigneeId with
    | some kind, some aid => kind.asStr ++ "/".toList ++ aid
    | _, _ => "（清空）".toList
  let notes := match assignee, assigneeId with
    | some kind, some aid =>
      let new : Actor := ⟨kind.asStr, aid⟩
      Note.subscriber id new "assignee".toList ::
        (if (old.assignee ≠ assignee ∨ old.assigneeId ≠ assigneeId) ∧ new ≠ actor then
          [.notification new "assigned".toList (old.number ++ " ".toList ++ old.title)
            (actor.kind ++ "/".toList ++ actor.id ++ " 把任务指派给了你".toList) id now]
        else [])
    | _, _ => []
  pure ((db.setIssue id (setAssignee assignee assigneeId now)).note
    (.activity id actor "assigned".toList
      (actor.id ++ ": ".toList ++ displayAssignee old ++ " → ".toList ++ details) now :: notes))

/-- First come, first served: only an issue of nobody can be claimed. -/
def claimIssue (db : Db) (id : Nat) (claimer : Text) (actor : Actor) (now : Int) :
    Except Text Db := do
  let claimer := trim claimer
  if claimer = [] then .error "claimer must not be empty".toList
  let old ← getIssue db id
  match old.assigneeId with
  | some a => .error ("已被 ".toList ++ a ++ " 认领".toList)
  | none =>
    let new : Actor := ⟨AssignmentType.worker.asStr, claimer⟩
    pure ((db.setIssue id (setAssignee (some .worker) (some claimer) now)).note
      ([.activity id actor "claimed".toList (actor.id ++ ": ".toList ++ displayAssignee old ++
          " → worker/".toList ++ claimer) now, .subscriber id new "assignee".toList] ++
        if new ≠ actor then
          [.notification new "assigned".toList (old.number ++ " ".toList ++ old.title)
            ("你认领了这个任务（".toList ++ actor.kind ++ "/".toList ++ actor.id ++
              "）".toList) id now]
        else []))

/-- Only the claimer's own claim is taken back. -/
def rollbackClaim (db : Db) (id : Nat) (claimer : Text) (actor : Actor) (now : Int) :
    Db × Bool :=
  let hit := fun i : Issue => i.id = id && i.assignee = some .worker && i.assigneeId = some claimer
  if db.issues.rows.any hit then
    ({ db with issues := db.issues.update hit (setAssignee none none now) }.note
      [.activity id actor "assigned".toList
        ("认领派发失败回滚：worker/".toList ++ claimer ++ " → （清空）".toList) now], true)
  else (db, false)

/-- The activities, in the order of their ids. -/
def activities (db : Db) : List (Nat × Text) :=
  db.notes.filterMap fun n => match n with
    | .activity issueId _ action _ _ => some (issueId, action)
    | _ => none

/-- A decision is taken back, past the state machine. -/
def rollbackDecision (db : Db) (activityId : Nat) (now : Int) : Except Text Db :=
  match if activityId = 0 then none else (activities db)[activityId - 1]? with
  | none => .error ("活动 ".toList ++ decimal activityId ++ " 不存在".toList)
  | some (issueId, action) =>
    if action ≠ "auto_decide".toList then
      .error ("活动 ".toList ++ decimal activityId ++ " 不是自动决策记录（action=".toList ++ action ++
        "），不支持回滚".toList)
    else match db.issues.find issueId with
      | none => .error ("issue ".toList ++ decimal issueId ++ " 不存在".toList)
      | some issue =>
        if issue.status ≠ .done then
          .error ("issue ".toList ++ issue.number ++ " 当前状态 ".toList ++ issue.status.asStr ++
            "，仅支持回滚已自动收货（done）的决策".toList)
        else
          let actor := Actor.system "board-audit".toList
          .ok ((db.setIssue issueId (setStatus .inReview now)).note
            [.comment issueId actor
              "↩ 审计回滚：撤销此前「agent 验收通过并自动收货」的决策，单据退回 in_review 等待重新处置。".toList
              .system now,
             .activity issueId actor "status_changed".toList
              ("audit_rollback:done→in_review:activity_id=".toList ++ decimal activityId) now])

def rollbackDoneToInReview (db : Db) (issueId : Nat) (reason : Text) (now : Int) :
    Except Text (Db × Bool) :=
  match db.issues.find issueId with
  | none => .error ("issue ".toList ++ decimal issueId ++ " 不存在".toList)
  | some issue =>
    if issue.status ≠ .done then .ok (db, false)
    else
      let actor := Actor.system "board-archive".toList
      .ok ((db.setIssue issueId (setStatus .inReview now)).note
        [.comment issueId actor ("↩ 终态回滚：".toList ++ reason ++
          "——单据退回 in_review 等待人工处置。".toList) .system now,
         .activity issueId actor "status_changed".toList
          ("done_rollback:done→in_review:".toList ++ reason) now], true)

/-- The issue of a row has to be there. -/
def addActivity (db : Db) (issueId : Nat) (actor : Actor) (action details : Text) (now : Int) : Db :=
  if (db.issues.find issueId).isSome then db.note [.activity issueId actor action details now]
  else db

/-! New issues and changed fields. -/

/-- The next issues of the chain of parents. -/
def parentOf (issues : Table Issue.id) (id : Nat) : Option Nat :=
  (issues.find id).bind Issue.parentIssueId

/-- The loop of at most 64 steps over the parents, and whether it has met the issue. -/
def meetsSelf (issues : Table Issue.id) (selfId : Option Nat) : Nat → Nat → Bool
  | 0, _ => false
  | fuel + 1, cursor => match parentOf issues cursor with
    | none => false
    | some next => if some next = selfId then true else meetsSelf issues selfId fuel next

def validateIssueRefs (db : Db) (parentIssueId projectId selfId : Option Nat) : Except Text Unit := do
  match parentIssueId with
  | none => pure ()
  | some pid =>
    if some pid = selfId then
      .error ("parent_issue_id 不能指向自身（issue ".toList ++ decimal pid ++ "）".toList)
    if (db.issues.find pid).isNone then
      .error ("parent_issue_id ".toList ++ decimal pid ++ " 不存在".toList)
    if meetsSelf db.issues selfId 64 pid then
      .error ("parent_issue_id ".toList ++ decimal pid ++ " 会构成父子环（链路回到 issue ".toList ++
        decimal (selfId.getD 0) ++ "）".toList)
  match projectId with
  | none => pure ()
  | some proj =>
    if !db.projects.contains proj then
      .error ("project_id ".toList ++ decimal proj ++ " 不存在".toList)

structure NewIssue where
  title : Text
  description : Text
  priority : Int
  assignee : Option AssignmentType
  assigneeId : Option Text
  creator : Actor
  parentIssueId : Option Nat
  projectId : Option Nat
  dueDate : Option Int
  acceptanceCriteria : Option Text

/-- `generate` makes acceptance criteria of a title and a description. -/
def createIssue (generate : Text → Text → Option Text) (db : Db) (new : NewIssue) (now : Int) :
    Except Text Db := do
  if trim new.title = [] then .error "issue title must not be empty".toList
  match new.assignee with
  | none => pure ()
  | some kind =>
    if trim (new.assigneeId.getD []) = [] then
      .error ("assignee ".toList ++ kind.asStr ++ " requires assignee_id".toList)
  let criteria := if trim (new.acceptanceCriteria.getD []) = [] then
    generate (trim new.title) (trim new.description) else new.acceptanceCriteria
  validateIssueRefs db new.parentIssueId new.projectId none
  let id := db.issueSeq + 1
  let number := db.numberPrefix ++ "-".toList ++ decimal (db.counter + 1)
  let notes := [Note.activity id new.creator "created".toList
      ("issue ".toList ++ number ++ " created".toList) now,
    .subscriber id new.creator "creator".toList] ++ match new.assignee, new.assigneeId with
    | some kind, some aid =>
      [.activity id new.creator "assigned".toList (new.creator.id ++ " → ".toList ++
        kind.asStr ++ "/".toList ++ aid) now, .subscriber id ⟨kind.asStr, aid⟩ "assignee".toList]
    | _, _ => []
  pure ({ db with
    issues := db.issues.insert
      { id
        number
        title := new.title
        description := new.description
        status := .backlog
        priority := new.priority
        assignee := new.assignee
        assigneeId := new.assigneeId
        creator := new.creator
        parentIssueId := new.parentIssueId
        projectId := new.projectId
        dueDate := new.dueDate
        position := (db.counter + 1 : Nat)
        acceptanceCriteria := criteria
        hidden := false
        createdAt := now
        updatedAt := now }
    issueSeq := id
    counter := db.counter + 1 }.note notes)

structure IssuePatch where
  title : Option Text
  description : Option Text
  priority : Option Int
  projectId : Option Nat
  dueDate : Option Int
  position : Option Int
  acceptanceCriteria : Option Text
  parentIssueId : Option Nat

/-- The new value, and the name when it is another one. -/
def applyPatch {α : Type} [DecidableEq α] (name : Text) (old : α) (new : Option α) :
    α × List Text :=
  match new with
  | some v => if v ≠ old then (v, [name]) else (old, [])
  | none => (old, [])

def applySetOpt {α : Type} [DecidableEq α] (name : Text) (old new : Option α) :
    Option α × List Text :=
  match new with
  | some v => if old ≠ some v then (some v, [name]) else (old, [])
  | none => (old, [])

def updateIssue (db : Db) (id : Nat) (patch : IssuePatch) (actor : Actor) (now : Int) :
    Except Text Db := do
  let old ← getIssue db id
  let title := applyPatch "title".toList old.title patch.title
  let description := applyPatch "description".toList old.description patch.description
  let priority := applyPatch "priority".toList old.priority patch.priority
  let project := applySetOpt "project_id".toList old.projectId patch.projectId
  let due := applySetOpt "due_date".toList old.dueDate patch.dueDate
  let position := applyPatch "position".toList old.position patch.position
  let criteria :=
    applySetOpt "acceptance_criteria".toList old.acceptanceCriteria patch.acceptanceCriteria
  let parent := applySetOpt "parent_issue_id".toList old.parentIssueId patch.parentIssueId
  let changes := title.2 ++ description.2 ++ priority.2 ++ project.2 ++ due.2 ++ position.2 ++
    criteria.2 ++ parent.2
  if parent.2 ≠ [] ∨ project.2 ≠ [] then validateIssueRefs db parent.1 project.1 (some id)
  let set : Table.Setter Issue.id :=
    ⟨fun i => { i with
      title := title.1
      description := description.1
      priority := priority.1
      projectId := project.1
      dueDate := due.1
      position := position.1
      acceptanceCriteria := criteria.1
      parentIssueId := parent.1
      updatedAt := now }, fun _ => rfl⟩
  pure ((db.setIssue id set).note (if changes = [] then [] else
    [.activity id actor "updated".toList (Json.arr (changes.map Json.str)).render now]))

end NemesisBot.IssueStore
