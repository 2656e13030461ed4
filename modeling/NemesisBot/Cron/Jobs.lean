import NemesisBot.Lib.Bytes
import NemesisBot.Lib.FirstKey
import NemesisBot.Lib.Strings

/-! Scheduled jobs: what one holds, when it runs next, and the calls that edit the list of
them. -/
namespace NemesisBot.Cron
open Strings FirstKey

structure CronSchedule where
  kind : Text
  atMs : Option Int
  everyMs : Option Int
  expr : Option Text
  tz : Option Text
  deriving DecidableEq

structure CronPayload where
  kind : Text
  message : Text
  command : Option Text
  deliver : Bool
  channel : Option Text
  «to» : Option Text
  sessionKey : Option Text
  maxRounds : Option Nat
  deriving DecidableEq

structure CronRunRecord where
  atMs : Int
  status : Text
  error : Option Text
  deriving DecidableEq

structure CronJobState where
  nextRunAtMs : Option Int
  lastRunAtMs : Option Int
  lastStatus : Option Text
  lastError : Option Text
  history : List CronRunRecord
  deriving DecidableEq

structure CronJob where
  id : Text
  name : Text
  enabled : Bool
  schedule : CronSchedule
  payload : CronPayload
  state : CronJobState
  createdAtMs : Int
  updatedAtMs : Int
  deleteAfterRun : Bool
  deriving DecidableEq

/-- An empty text clears `channel`, `to` and `sessionKey`; `none` leaves a field as it is. -/
structure CronJobPatch where
  name : Option Text
  schedule : Option CronSchedule
  message : Option Text
  channel : Option Text
  «to» : Option Text
  sessionKey : Option Text
  enabled : Option Bool
  maxRounds : Option (Option Nat)

/-- The cron library: the first occurrence of an expression after a time, read in a named time
zone or the local one; and text as `{:?}` writes it. -/
structure Env where
  nextOccurrence : Text → Option Text → Int → Option Int
  debug : Text → Text

def maxHistory : Nat := 50

def CronJobState.pushHistory (s : CronJobState) (atMs : Int) (status : Text)
    (error : Option Text) : CronJobState :=
  let history := s.history ++ [⟨atMs, status, error⟩]
  { s with history := history.drop (history.length - maxHistory) }

def reservedNamePrefixes : List Text := ["board-ap:".toList, "memory-dreaming:".toList]

def reservedPrefixHit (name : Text) : Option Text :=
  reservedNamePrefixes.find? fun p => p.isPrefixOf name

/-- Addition that fails above the largest 64-bit integer. -/
def checkedAdd (a b : Int) : Option Int := if a + b < 2 ^ 63 then some (a + b) else none

def Env.computeNextRun (env : Env) (schedule : CronSchedule) (nowMs : Int) : Option Int :=
  if schedule.kind = "at".toList then schedule.atMs.filter fun t => nowMs < t
  else if schedule.kind = "every".toList then
    (schedule.everyMs.filter fun ms => 0 < ms).bind fun ms => checkedAdd nowMs ms
  else if schedule.kind = "cron".toList then
    match schedule.expr with
    | some expr => if expr = [] then none else env.nextOccurrence expr schedule.tz nowMs
    | none => none
  else none

abbrev findJob (id : Text) (jobs : List CronJob) : Option CronJob := findKey CronJob.id id jobs

abbrev setJob (id : Text) (job : CronJob) (jobs : List CronJob) : List CronJob :=
  setKey CronJob.id id job jobs

inductive Answer where
  | unit
  | flag (b : Bool)
  | job (job : CronJob)

/-- An edit in memory that still has to be saved, and how it is taken back. -/
structure Mutation where
  jobs : List CronJob
  undo : List CronJob → List CronJob
  answer : Answer

/-- What a call does once its checks have passed; only a change is saved. -/
inductive Outcome where
  | unchanged (answer : Answer)
  | mutated (m : Mutation)

def addReserved (env : Env) (pre name : Text) : Text :=
  "cron job 名字以保留前缀 ".toList ++ env.debug pre ++
    " 开头（系统内部作业命名空间），触发时会被劫持、启动同步时会被误删，请换名字: ".toList ++
    env.debug name

def renameReserved (env : Env) (pre name : Text) : Text :=
  "新名字以保留前缀 ".toList ++ env.debug pre ++
    " 开头（系统内部作业命名空间），改名后会被触发劫持、启动同步时会被误删，请换名字: ".toList ++
    env.debug name

/-- The text of every check for a schedule that never runs. -/
def deadSchedule (head job : Text) : Text :=
  head ++ job ++
    (" （可能原因：at 已过期 / every 间隔非正或溢出 / cron 表达式永不匹配 / 调度类型未知）").toList

/-- The text of every check for a message with nothing in it. -/
def blankMessage (head job advice : Text) : Text :=
  head ++ job ++ " （启用的任务每次触发都不会投递任何内容；".toList ++ advice ++ "）".toList

def notFound (id : Text) : Text := "job not found: ".toList ++ id

def require (c : Bool) (e : Text) : Except Text Unit := if c then .ok () else .error e

/-- Names in the namespace of the system's own jobs are refused. -/
def refuseReserved (name : Text) (message : Text → Text) : Except Text Unit :=
  match reservedPrefixHit name with
  | some p => .error (message p)
  | none => .ok ()

def Env.checkRename (env : Env) (name : Option Text) : Except Text Unit :=
  match name with
  | none => .ok ()
  | some n => refuseReserved n fun p => renameReserved env p n

def lookUp (id : Text) (jobs : List CronJob) : Except Text CronJob :=
  match findJob id jobs with
  | some job => .ok job
  | none => .error (notFound id)

/-- The change of one job that is there, with the job put back when it is not saved. -/
def replaceJob (jobs : List CronJob) (id : Text) (before after : CronJob) (answer : Answer) :
    Outcome :=
  .mutated ⟨setJob id after jobs, setJob id before, answer⟩

structure NewJob where
  name : Text
  schedule : CronSchedule
  message : Text
  deliver : Bool
  channel : Option Text
  «to» : Option Text
  sessionKey : Option Text
  maxRounds : Option Nat
  enabled : Bool

def Env.build (env : Env) (nowMs : Int) (id : Text) (n : NewJob) : CronJob where
  id := id
  name := n.name
  enabled := n.enabled
  schedule := n.schedule
  payload := ⟨"agent_turn".toList, n.message, none, n.deliver, n.channel, n.«to», n.sessionKey,
    n.maxRounds⟩
  state := ⟨if n.enabled then env.computeNextRun n.schedule nowMs else none, none, none, none, []⟩
  createdAtMs := nowMs
  updatedAtMs := nowMs
  deleteAfterRun := n.schedule.kind = "at".toList

/-- The id is drawn at random. -/
def addJobInternal (env : Env) (nowMs : Int) (id : Text) (n : NewJob) (jobs : List CronJob) :
    Outcome :=
  let job := env.build nowMs id n
  .mutated ⟨jobs ++ [job], fun l => l.filter fun j => j.id ≠ job.id, .job job⟩

/-- The clock is read once for the checks and again for the job. -/
def addJobExt (env : Env) (checkedMs nowMs : Int) (id : Text) (n : NewJob)
    (jobs : List CronJob) : Except Text Outcome := do
  refuseReserved n.name fun p => addReserved env p n.name
  require (!n.enabled || (env.computeNextRun n.schedule checkedMs).isSome)
    (deadSchedule "调度永远不会有下一次触发，拒绝创建死排程任务: ".toList (env.debug n.name))
  require (!n.enabled || trim n.message ≠ [])
    (blankMessage "message 为空白，拒绝创建空转定时任务: ".toList (env.debug n.name)
      "请给出消息文本，或先创建为停用".toList)
  .ok (addJobInternal env nowMs id n jobs)

def removeJob (id : Text) (jobs : List CronJob) : Outcome :=
  match jobs.findIdx? fun j => j.id = id, findJob id jobs with
  | some idx, some job =>
    .mutated ⟨jobs.eraseIdx idx, fun l => l.insertIdx (min idx l.length) job, .flag true⟩
  | _, _ => .unchanged (.flag false)

def Env.reschedule (env : Env) (nowMs : Int) (job : CronJob) (s : CronSchedule) : CronJob :=
  { job with
    schedule := s
    deleteAfterRun := s.kind = "at".toList
    state.nextRunAtMs :=
      if job.enabled then env.computeNextRun s nowMs else job.state.nextRunAtMs }

def updateJob (env : Env) (nowMs : Int) (id : Text) (name : Option Text)
    (schedule : Option CronSchedule) (jobs : List CronJob) : Except Text Outcome := do
  env.checkRename name
  let job ← lookUp id jobs
  require (schedule.all fun s => !job.enabled || (env.computeNextRun s nowMs).isSome)
    (deadSchedule "新调度永远不会有下一次触发，拒绝将启用中任务更新为死排程: ".toList id)
  let named := { job with name := name.getD job.name }
  let timed := schedule.elim named (env.reschedule nowMs named)
  .ok (replaceJob jobs id job { timed with updatedAtMs := nowMs } .unit)

/-- The empty text clears. -/
def patched (old : Option Text) : Option Text → Option Text
  | none => old
  | some new => if new = [] then none else some new

def CronPayload.patch (p : CronPayload) (patch : CronJobPatch) : CronPayload :=
  { p with
    message := patch.message.getD p.message
    channel := patched p.channel patch.channel
    «to» := patched p.«to» patch.«to»
    sessionKey := patched p.sessionKey patch.sessionKey
    maxRounds := patch.maxRounds.getD p.maxRounds }

def Env.setEnabled (env : Env) (nowMs : Int) (job : CronJob) (enabled : Bool) : CronJob :=
  { job with
    enabled := enabled
    state.nextRunAtMs := if enabled then env.computeNextRun job.schedule nowMs else none }

def Env.applyPatch (env : Env) (nowMs : Int) (patch : CronJobPatch) (job : CronJob) : CronJob :=
  let named := { job with name := patch.name.getD job.name }
  let timed := patch.schedule.elim named (env.reschedule nowMs named)
  let paid := { timed with payload := timed.payload.patch patch }
  { patch.enabled.elim paid (env.setEnabled nowMs paid) with updatedAtMs := nowMs }

def patchJob (env : Env) (nowMs : Int) (id : Text) (patch : CronJobPatch)
    (jobs : List CronJob) : Except Text Outcome := do
  env.checkRename patch.name
  let job ← lookUp id jobs
  let enabled := patch.enabled.getD job.enabled
  require (!enabled || (env.computeNextRun (patch.schedule.getD job.schedule) nowMs).isSome)
    (deadSchedule "patch 后的调度永远不会有下一次触发，拒绝死排程更新: ".toList id)
  require (!enabled || (reservedPrefixHit job.name).isSome ||
      trim (patch.message.getD job.payload.message) ≠ [])
    (blankMessage "patch 后 message 为空白，拒绝空转更新: ".toList id "请给出消息文本".toList)
  let updated := env.applyPatch nowMs patch job
  .ok (replaceJob jobs id job updated (.job updated))

/-- The checks of `toggleJob` and `enableJob` before a job is switched on. -/
def Env.checkEnabling (env : Env) (nowMs : Int) (id : Text) (enabling : Bool) (job : CronJob) :
    Except Text Unit := do
  require (!enabling || (env.computeNextRun job.schedule nowMs).isSome)
    (deadSchedule "调度永远不会有下一次触发，拒绝启用死排程任务: ".toList id)
  require (!enabling || (reservedPrefixHit job.name).isSome || trim job.payload.message ≠ [])
    (blankMessage "message 为空白，拒绝启用空转任务: ".toList id "请先 patch 补上消息文本".toList)

def toggleJob (env : Env) (nowMs : Int) (id : Text) (jobs : List CronJob) :
    Except Text Outcome := do
  let job ← lookUp id jobs
  env.checkEnabling nowMs id (!job.enabled) job
  let updated := { env.setEnabled nowMs job (!job.enabled) with updatedAtMs := nowMs }
  .ok (replaceJob jobs id job updated (.flag updated.enabled))

def enableJob (env : Env) (nowMs : Int) (id : Text) (enabled : Bool) (jobs : List CronJob) :
    Except Text Outcome := do
  let job ← lookUp id jobs
  env.checkEnabling nowMs id enabled job
  let updated := { env.setEnabled nowMs job enabled with updatedAtMs := nowMs }
  .ok (replaceJob jobs id job updated (.job updated))

inductive Edit where
  | addJobExt (checkedMs : Int) (id : Text) (new : NewJob)
  | removeJob (id : Text)
  | updateJob (id : Text) (name : Option Text) (schedule : Option CronSchedule)
  | patchJob (id : Text) (patch : CronJobPatch)
  | toggleJob (id : Text)
  | enableJob (id : Text) (enabled : Bool)

def Edit.mutate (env : Env) (nowMs : Int) (jobs : List CronJob) : Edit → Except Text Outcome
  | .addJobExt checkedMs id new => Cron.addJobExt env checkedMs nowMs id new jobs
  | .removeJob id => .ok (Cron.removeJob id jobs)
  | .updateJob id name schedule => Cron.updateJob env nowMs id name schedule jobs
  | .patchJob id patch => Cron.patchJob env nowMs id patch jobs
  | .toggleJob id => Cron.toggleJob env nowMs id jobs
  | .enableJob id enabled => Cron.enableJob env nowMs id enabled jobs

/-- The job that an edit is about. -/
def Edit.id : Edit → Text
  | .addJobExt _ id _ | .removeJob id | .updateJob id _ _ | .patchJob id _ | .toggleJob id
  | .enableJob id _ => id

/-- The edit does not remove the job, switch it off or give it another schedule. -/
def Edit.Leaves (job : CronJob) : Edit → Prop
  | .addJobExt _ _ _ => True
  | .removeJob _ | .toggleJob _ => False
  | .updateJob _ _ schedule => ∀ s ∈ schedule, s = job.schedule
  | .patchJob _ patch => (∀ s ∈ patch.schedule, s = job.schedule) ∧ patch.enabled ≠ some false
  | .enableJob _ enabled => enabled = true

/-- A job that is switched off has no next run. -/
def CronJob.Settled (job : CronJob) : Prop := job.enabled = false → job.state.nextRunAtMs = none

/-- What an edit that goes through makes of a job that is there. -/
structure Replaces (e : Edit) (job after : CronJob) : Prop where
  id : after.id = job.id
  settled : job.Settled → after.Settled
  leaves : e.Leaves job → job.enabled = true → after.enabled = true ∧ after.schedule = job.schedule

theorem require_ok {c : Bool} {e : Text} {u : Unit} (h : require c e = .ok u) : c = true := by
  rw [require] at h
  split at h
  · assumption
  · cases h

theorem lookUp_ok {id : Text} {jobs : List CronJob} {job : CronJob}
    (h : lookUp id jobs = .ok job) : findJob id jobs = some job := by
  rw [lookUp] at h
  split at h
  · rename_i found hf
    rw [hf, Except.ok.inj h]
  · cases h

section Mutate
variable {env : Env} {nowMs : Int} {jobs : List CronJob} {m : Mutation}

theorem replaceJob_eq {id : Text} {before after : CronJob} {answer : Answer}
    (h : replaceJob jobs id before after answer = .mutated m) :
    m.jobs = setJob id after jobs ∧ m.undo = setJob id before := by
  obtain rfl := Outcome.mutated.inj h
  exact ⟨rfl, rfl⟩

theorem setEnabled_settled (job : CronJob) (enabled : Bool) :
    (env.setEnabled nowMs job enabled).Settled := by
  intro h
  have hoff : enabled = false := h
  rw [Env.setEnabled, hoff]
  rfl

theorem reschedule_settled {job : CronJob} (h : job.Settled) (s : CronSchedule) :
    (env.reschedule nowMs job s).Settled := by
  intro hoff
  have hoff' : job.enabled = false := hoff
  simp only [Env.reschedule, hoff', Bool.false_eq_true, if_false]
  exact h hoff'

theorem updateJob_mutated {id : Text} {name : Option Text} {schedule : Option CronSchedule}
    (h : updateJob env nowMs id name schedule jobs = .ok (.mutated m)) :
    ∃ job after, findJob id jobs = some job ∧ m.jobs = setJob id after jobs ∧
      m.undo = setJob id job ∧ Replaces (.updateJob id name schedule) job after := by
  obtain ⟨_, _, h⟩ := Bytes.bind_eq_ok.mp h
  obtain ⟨job, hjob, h⟩ := Bytes.bind_eq_ok.mp h
  obtain ⟨_, _, h⟩ := Bytes.bind_eq_ok.mp h
  obtain ⟨hjobs, hundo⟩ := replaceJob_eq (Except.ok.inj h)
  refine ⟨job, _, lookUp_ok hjob, hjobs, hundo, ?_⟩
  cases schedule with
  | none => exact ⟨rfl, fun hs => hs, fun _ hon => ⟨hon, rfl⟩⟩
  | some s =>
    refine ⟨rfl, fun hs => ?_, fun hl hon => ⟨hon, hl s rfl⟩⟩
    have hnamed : CronJob.Settled { job with name := name.getD job.name } := hs
    exact reschedule_settled hnamed s

theorem applyPatch_replaces {id : Text} {patch : CronJobPatch} (job : CronJob) :
    Replaces (.patchJob id patch) job (env.applyPatch nowMs patch job) := by
  obtain ⟨name, schedule, message, channel, «to», sessionKey, enabled, maxRounds⟩ := patch
  refine ⟨?_, fun hs => ?_, fun hl hon => ?_⟩
  · cases schedule <;> cases enabled <;> rfl
  · cases enabled with
    | none =>
      cases schedule with
      | none => exact hs
      | some s =>
        have hnamed : CronJob.Settled { job with name := name.getD job.name } := hs
        exact reschedule_settled hnamed s
    | some en => exact setEnabled_settled _ en
  · obtain ⟨hsame, hoff⟩ := hl
    constructor
    · cases enabled with
      | none => cases schedule <;> exact hon
      | some en =>
        have hen : en = true := by simpa using fun h => hoff (congrArg some h)
        cases schedule <;> exact hen
    · cases schedule with
      | none => cases enabled <;> rfl
      | some s => cases enabled <;> exact hsame s rfl

theorem patchJob_mutated {id : Text} {patch : CronJobPatch}
    (h : patchJob env nowMs id patch jobs = .ok (.mutated m)) :
    ∃ job after, findJob id jobs = some job ∧ m.jobs = setJob id after jobs ∧
      m.undo = setJob id job ∧ Replaces (.patchJob id patch) job after := by
  obtain ⟨_, _, h⟩ := Bytes.bind_eq_ok.mp h
  obtain ⟨job, hjob, h⟩ := Bytes.bind_eq_ok.mp h
  obtain ⟨_, _, h⟩ := Bytes.bind_eq_ok.mp h
  obtain ⟨_, _, h⟩ := Bytes.bind_eq_ok.mp h
  obtain ⟨hjobs, hundo⟩ := replaceJob_eq (Except.ok.inj h)
  exact ⟨job, _, lookUp_ok hjob, hjobs, hundo, applyPatch_replaces job⟩

theorem toggleJob_mutated {id : Text} (h : toggleJob env nowMs id jobs = .ok (.mutated m)) :
    ∃ job after, findJob id jobs = some job ∧ m.jobs = setJob id after jobs ∧
      m.undo = setJob id job ∧ Replaces (.toggleJob id) job after := by
  obtain ⟨job, hjob, h⟩ := Bytes.bind_eq_ok.mp h
  obtain ⟨_, _, h⟩ := Bytes.bind_eq_ok.mp h
  obtain ⟨hjobs, hundo⟩ := replaceJob_eq (Except.ok.inj h)
  exact ⟨job, _, lookUp_ok hjob, hjobs, hundo, rfl, fun _ => setEnabled_settled job _,
    fun hl => hl.elim⟩

theorem enableJob_mutated {id : Text} {enabled : Bool}
    (h : enableJob env nowMs id enabled jobs = .ok (.mutated m)) :
    ∃ job after, findJob id jobs = some job ∧ m.jobs = setJob id after jobs ∧
      m.undo = setJob id job ∧ Replaces (.enableJob id enabled) job after := by
  obtain ⟨job, hjob, h⟩ := Bytes.bind_eq_ok.mp h
  obtain ⟨_, _, h⟩ := Bytes.bind_eq_ok.mp h
  obtain ⟨hjobs, hundo⟩ := replaceJob_eq (Except.ok.inj h)
  exact ⟨job, _, lookUp_ok hjob, hjobs, hundo, rfl, fun _ => setEnabled_settled job _,
    fun hl _ => ⟨hl, rfl⟩⟩

theorem addJobExt_mutated {checkedMs : Int} {id : Text} {new : NewJob}
    (h : addJobExt env checkedMs nowMs id new jobs = .ok (.mutated m)) :
    m.jobs = jobs ++ [env.build nowMs id new] ∧ m.undo = List.filter fun j => j.id ≠ id := by
  obtain ⟨_, _, h⟩ := Bytes.bind_eq_ok.mp h
  obtain ⟨_, _, h⟩ := Bytes.bind_eq_ok.mp h
  obtain ⟨_, _, h⟩ := Bytes.bind_eq_ok.mp h
  obtain rfl := Outcome.mutated.inj (Except.ok.inj h)
  exact ⟨rfl, rfl⟩

theorem build_settled (id : Text) (new : NewJob) : (env.build nowMs id new).Settled := by
  intro hoff
  have hoff' : new.enabled = false := hoff
  rw [Env.build, hoff']
  rfl

theorem removeJob_mutated {id : Text} (h : removeJob id jobs = .mutated m) :
    ∃ idx job, jobs.findIdx? (fun j => j.id = id) = some idx ∧ jobs[idx]? = some job ∧
      m.jobs = jobs.eraseIdx idx ∧ m.undo = fun l => l.insertIdx (min idx l.length) job := by
  rw [removeJob] at h
  split at h
  · rename_i idx job hidx hjob
    obtain rfl := Outcome.mutated.inj h
    refine ⟨idx, job, hidx, ?_, rfl, rfl⟩
    rw [findJob, findKey, List.find?_eq_bind_findIdx?_getElem?, hidx, Option.bind_some] at hjob
    exact hjob
  · cases h

/-- An edit adds a job, takes one out of its place, or changes one where it stands. -/
theorem mutate_cases {e : Edit} (h : e.mutate env nowMs jobs = .ok (.mutated m)) :
    (∃ checkedMs id new, e = .addJobExt checkedMs id new ∧
      m.jobs = jobs ++ [env.build nowMs id new] ∧ m.undo = List.filter fun j => j.id ≠ id) ∨
    (∃ id idx job, e = .removeJob id ∧ jobs.findIdx? (fun j => j.id = id) = some idx ∧
      jobs[idx]? = some job ∧ m.jobs = jobs.eraseIdx idx ∧
      m.undo = fun l => l.insertIdx (min idx l.length) job) ∨
    (∃ job after, findJob e.id jobs = some job ∧ m.jobs = setJob e.id after jobs ∧
      m.undo = setJob e.id job ∧ Replaces e job after) := by
  cases e with
  | addJobExt checkedMs id new => exact .inl ⟨checkedMs, id, new, rfl, addJobExt_mutated h⟩
  | removeJob id =>
    obtain ⟨idx, job, hm⟩ := removeJob_mutated (Except.ok.inj h)
    exact .inr (.inl ⟨id, idx, job, rfl, hm⟩)
  | updateJob id name schedule => exact .inr (.inr (updateJob_mutated h))
  | patchJob id patch => exact .inr (.inr (patchJob_mutated h))
  | toggleJob id => exact .inr (.inr (toggleJob_mutated h))
  | enableJob id enabled => exact .inr (.inr (enableJob_mutated h))

/-- Only the removal of a job that is not there changes nothing. -/
theorem mutate_unchanged {e : Edit} {answer : Answer}
    (h : e.mutate env nowMs jobs = .ok (.unchanged answer)) :
    ∃ id, e = .removeJob id ∧ findJob id jobs = none := by
  cases e with
  | addJobExt checkedMs id new =>
    obtain ⟨_, _, h⟩ := Bytes.bind_eq_ok.mp h
    obtain ⟨_, _, h⟩ := Bytes.bind_eq_ok.mp h
    obtain ⟨_, _, h⟩ := Bytes.bind_eq_ok.mp h
    cases h
  | removeJob id =>
    refine ⟨id, rfl, ?_⟩
    have h' : removeJob id jobs = .unchanged answer := Except.ok.inj h
    rw [removeJob] at h'
    split at h'
    · cases h'
    · rename_i hno
      cases hf : findJob id jobs with
      | none => rfl
      | some job =>
        obtain ⟨idx, hidx⟩ : ∃ idx, jobs.findIdx? (fun j => j.id = id) = some idx := by
          rw [← Option.isSome_iff_exists, List.findIdx?_isSome, List.any_eq_true]
          exact ⟨job, mem_of_findKey hf, by simpa using key_of_findKey hf⟩
        exact (hno idx job hidx hf).elim
  | updateJob id name schedule =>
    obtain ⟨_, _, h⟩ := Bytes.bind_eq_ok.mp h
    obtain ⟨_, _, h⟩ := Bytes.bind_eq_ok.mp h
    obtain ⟨_, _, h⟩ := Bytes.bind_eq_ok.mp h
    cases h
  | patchJob id patch =>
    obtain ⟨_, _, h⟩ := Bytes.bind_eq_ok.mp h
    obtain ⟨_, _, h⟩ := Bytes.bind_eq_ok.mp h
    obtain ⟨_, _, h⟩ := Bytes.bind_eq_ok.mp h
    obtain ⟨_, _, h⟩ := Bytes.bind_eq_ok.mp h
    cases h
  | toggleJob id =>
    obtain ⟨_, _, h⟩ := Bytes.bind_eq_ok.mp h
    obtain ⟨_, _, h⟩ := Bytes.bind_eq_ok.mp h
    cases h
  | enableJob id enabled =>
    obtain ⟨_, _, h⟩ := Bytes.bind_eq_ok.mp h
    obtain ⟨_, _, h⟩ := Bytes.bind_eq_ok.mp h
    cases h

/-- The id that an edit draws is not in use. -/
def Edit.Fresh (jobs : List CronJob) : Edit → Prop
  | .addJobExt _ id _ => ∀ job ∈ jobs, job.id ≠ id
  | _ => True

/-- What cannot be saved is taken back whole, the order of the jobs included. -/
theorem mutate_undo {e : Edit} (hfresh : e.Fresh jobs)
    (h : e.mutate env nowMs jobs = .ok (.mutated m)) : m.undo m.jobs = jobs := by
  obtain ⟨checkedMs, id, new, rfl, hjobs, hundo⟩ | ⟨id, idx, job, rfl, hidx, hget, hjobs, hundo⟩ |
    ⟨job, after, hfind, hjobs, hundo, hrep⟩ := mutate_cases h
  · have hkeep : jobs.filter (fun j => j.id ≠ id) = jobs :=
      List.filter_eq_self.mpr fun j hj => by simpa using hfresh j hj
    have hnew : [env.build nowMs id new].filter (fun j => j.id ≠ id) = [] := by simp [Env.build]
    rw [hjobs, hundo, List.filter_append, hkeep, hnew, List.append_nil]
  · obtain ⟨hlt, rfl⟩ := List.getElem?_eq_some_iff.mp hget
    have hlen : idx ≤ (jobs.eraseIdx idx).length := by
      rw [List.length_eraseIdx_of_lt hlt]
      omega
    rw [hjobs, hundo]
    simp only [Nat.min_eq_left hlen]
    exact List.insertIdx_eraseIdx_getElem hlt
  · rw [hjobs, hundo]
    exact setKey_undo hfind (hrep.id.trans (key_of_findKey hfind))

end Mutate

end NemesisBot.Cron
