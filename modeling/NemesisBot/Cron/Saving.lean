import NemesisBot.Cron.Ticks
import NemesisBot.Lib.Runs

/-! The jobs in memory and in their file. Edits and runs by hand look at the damage flag under
the lock of the jobs before they save; a load sets the flag without that lock. -/
namespace NemesisBot.Cron.Saving
open Strings FirstKey Runs

/-- Who holds the lock with a save to come. -/
inductive Writer where
  /-- an edit, with the jobs from before it -/
  | edit (before : List CronJob) (m : Mutation)
  /-- the update after a run by hand -/
  | executed

/-- Where a load stands. -/
inductive Load where
  /-- the file has been read; `none` when that failed -/
  | read (data : Option (List CronJob))
  /-- the jobs are in memory, the flag is not yet cleared -/
  | installed
  | done

inductive Event where
  /-- an edit returns: the jobs before and after it, and the file -/
  | edited (before after : List CronJob) (file : Option (List CronJob)) (result : Except Text Answer)
  /-- the file is written -/
  | wrote
  | loadFailed
  | loadSucceeded

structure State where
  jobs : List CronJob
  file : Option (List CronJob)
  /-- `load_poisoned` -/
  poisoned : Bool
  writer : Option Writer
  loads : List Load
  /-- the runs by hand whose handlers run, with their times -/
  runs : List (Text × Int)
  tick : Tick
  /-- the latest event first -/
  log : List Event

/-- A service that has not loaded its file yet. -/
def start (file : Option (List CronJob)) : State := ⟨[], file, false, none, [], [], .idle, []⟩

def poisonedError (storePath : Text) : Text :=
  "cron store 加载失败（损坏/不可解析），拒绝落盘以防空内存 store 顶掉盘上任务；请修复或删除后重载: ".toList ++
    storePath

def State.record (s : State) (e : Event) : State := { s with log := e :: s.log }

/-- `store::save`, with the error it fails with. -/
def State.save (s : State) (fault : Option Text) : State :=
  match fault with
  | none => { s with file := some s.jobs }.record .wrote
  | some _ => s

/-- The look at the flag in `save_store_locked`. -/
def State.enter (s : State) (storePath : Text) (m : Mutation) : State :=
  if s.poisoned then
    { s with jobs := m.undo m.jobs }.record
      (.edited s.jobs (m.undo m.jobs) s.file (.error (poisonedError storePath)))
  else { s with jobs := m.jobs, writer := some (.edit s.jobs m) }

/-- The save that the holder of the lock has before it. -/
def State.write (s : State) (fault : Option Text) : Writer → State
  | .edit before m =>
    let s := { s with writer := none }.save fault
    match fault with
    | none => s.record (.edited before s.jobs s.file (.ok m.answer))
    | some e =>
      { s with jobs := m.undo s.jobs }.record (.edited before (m.undo s.jobs) s.file (.error e))
  | .executed => { s with writer := none }.save fault

inductive Act where
  | edit (nowMs : Int) (e : Edit)
  | write (fault : Option Text)
  | pause (nowMs : Int) (id : Text) (fault : Option Text)
  | collect (nowMs : Int) (fault : Option Text)
  | copy
  | handle
  | settle (updatedMs laterMs : Int) (result : HandlerResult) (fault : Option Text)
  | execute (nowMs : Int) (id : Text)
  | executed (k : Nat) (updatedMs : Int) (result : HandlerResult)
  /-- the file is read; a file that is not there is an empty store -/
  | load (fails : Bool)
  | install (k : Nat)
  | clear (k : Nat)
  | poison (k : Nat)

variable (env : Env) (storePath : Text)

/-- Everything but a load's reading and its flag waits for the lock. -/
def lockedStep (s : State) : Act → Option State
  | .edit nowMs e => some (match e.mutate env nowMs s.jobs with
    | .error err => s.record (.edited s.jobs s.jobs s.file (.error err))
    | .ok (.unchanged answer) => s.record (.edited s.jobs s.jobs s.file (.ok answer))
    | .ok (.mutated m) => s.enter storePath m)
  | .pause nowMs id fault => some (match pauseJob nowMs id s.jobs with
    | some jobs => { s with jobs := jobs }.save fault
    | none => s)
  | .collect nowMs fault => match s.tick with
    | .idle =>
      let due := dueJobs nowMs s.jobs
      if due = [] then some s
      else some ({ s with
        jobs := collectAndResetDue nowMs s.jobs
        tick := .next nowMs (due.map CronJob.id) }.save fault)
    | _ => none
  | .copy => (s.tick.copy s.jobs).map fun tick => { s with tick := tick }
  | .settle updatedMs laterMs result fault => match s.tick with
    | .handling tickMs id due =>
      some ({ s with
        jobs := env.settle tickMs updatedMs laterMs id result s.jobs
        tick := .next tickMs due }.save fault)
    | _ => none
  | .execute nowMs id =>
    if s.poisoned = false ∧ (findJob id s.jobs).isSome then
      some { s with runs := s.runs ++ [(id, nowMs)] }
    else some s
  | .executed k updatedMs result => (s.runs[k]?).map fun r =>
    { s with
      jobs := Cron.executed r.2 updatedMs r.1 result s.jobs
      runs := s.runs.eraseIdx k
      writer := if s.poisoned then none else some .executed }
  | .install k => match s.loads[k]? with
    | some (.read (some data)) => some { s with jobs := data, loads := s.loads.set k .installed }
    | _ => none
  | _ => none

def step (s : State) : Act → Option State
  | .write fault => s.writer.map (s.write fault)
  | .handle => match s.tick with
    | .ready tickMs job due => some { s with tick := .handling tickMs job.id due }
    | _ => none
  | .load fails =>
    let data := if fails then none else some (s.file.getD [])
    some { s with loads := s.loads ++ [.read data] }
  | .clear k => match s.loads[k]? with
    | some .installed =>
      some ({ s with loads := s.loads.set k .done, poisoned := false }.record .loadSucceeded)
    | _ => none
  | .poison k => match s.loads[k]? with
    | some (.read none) =>
      some ({ s with loads := s.loads.set k .done, poisoned := true }.record .loadFailed)
    | _ => none
  | act => match s.writer with
    | none => lockedStep env storePath s act
    | some _ => none

/-- A load has failed and none has succeeded since. -/
def damaged : List Event → Bool
  | [] => false
  | .loadFailed :: _ => true
  | .loadSucceeded :: _ => false
  | _ :: log => damaged log

/-- An edit that fails changes nothing, one that succeeds has written what it leaves; a damaged
store is not written. -/
def Guarded : List Event → Prop
  | [] => True
  | e :: log => Guarded log ∧ match e with
    | .edited before after file result =>
      (∀ err, result = .error err → after = before) ∧
        (∀ answer, result = .ok answer → file = some after)
    | .wrote => damaged log = false
    | _ => True

/-- The steps that do not look at the flag meet nothing to write while the store is damaged, and
no load fails between the look and the save of those that do. A removal of nothing finds the
jobs in the file, and an id that is drawn is not in use. -/
def Careful (s : State) : Act → Prop
  | .edit _ e => e.Fresh s.jobs ∧
      ∀ id, e = .removeJob id → findJob id s.jobs = none → s.file = some s.jobs
  | .pause nowMs id _ => s.poisoned = true → pauseJob nowMs id s.jobs = none
  | .collect nowMs _ => s.poisoned = true → dueJobs nowMs s.jobs = []
  | .settle _ _ _ _ => s.poisoned = false
  | .poison _ => s.writer = none
  | _ => True

structure Inv (s : State) : Prop where
  flag : s.poisoned = damaged s.log
  writer : ∀ w ∈ s.writer, s.poisoned = false ∧
    ∀ before m, w = .edit before m → s.jobs = m.jobs ∧ m.undo m.jobs = before
  guarded : Guarded s.log

variable {env : Env} {storePath : Text}

@[simp] theorem save_jobs (s : State) (fault : Option Text) : (s.save fault).jobs = s.jobs := by
  cases fault <;> rfl

@[simp] theorem save_writer (s : State) (fault : Option Text) :
    (s.save fault).writer = s.writer := by
  cases fault <;> rfl

@[simp] theorem save_poisoned (s : State) (fault : Option Text) :
    (s.save fault).poisoned = s.poisoned := by
  cases fault <;> rfl

@[simp] theorem damaged_save (s : State) (fault : Option Text) :
    damaged (s.save fault).log = damaged s.log := by
  cases fault <;> rfl

theorem guarded_save {s : State} (hg : Guarded s.log) (hd : damaged s.log = false)
    (fault : Option Text) : Guarded (s.save fault).log := by
  cases fault with
  | none => exact ⟨hg, hd⟩
  | some e => exact hg

/-- A step under the lock that saves, if at all, while the store is not damaged. -/
theorem inv_save {s t : State} (inv : Inv s) (hp : s.poisoned = false) (hlog : t.log = s.log)
    (htp : t.poisoned = s.poisoned) (hw : t.writer = none) (fault : Option Text) :
    Inv (t.save fault) where
  flag := by rw [save_poisoned, damaged_save, htp, hlog, inv.flag]
  writer w hmem := by
    rw [save_writer, hw] at hmem
    cases hmem
  guarded := by
    refine guarded_save (hlog ▸ inv.guarded) ?_ fault
    rw [hlog, ← inv.flag, hp]

theorem inv_quiet {s t : State} (inv : Inv s) (hlog : t.log = s.log)
    (htp : t.poisoned = s.poisoned) (hw : t.writer = none) : Inv t where
  flag := by rw [htp, hlog, inv.flag]
  writer w hmem := by
    rw [hw] at hmem
    cases hmem
  guarded := hlog ▸ inv.guarded

theorem inv_edit {s : State} (inv : Inv s) (hw : s.writer = none) {nowMs : Int} {e : Edit}
    (hc : Careful s (.edit nowMs e)) {t : State}
    (hs : lockedStep env storePath s (.edit nowMs e) = some t) : Inv t := by
  have hout (after : List CronJob) (result : Except Text Answer)
      (herr : ∀ err, result = .error err → after = s.jobs)
      (hok : ∀ answer, result = .ok answer → s.file = some after) :
      Inv ({ s with jobs := after }.record (.edited s.jobs after s.file result)) := by
    refine ⟨inv.flag, fun w hmem => ?_, inv.guarded, herr, hok⟩
    rw [State.record, hw] at hmem
    cases hmem
  obtain rfl := Option.some.inj hs
  split
  · exact hout s.jobs _ (fun _ _ => rfl) fun _ h => by cases h
  · rename_i answer hmut
    obtain ⟨id, rfl, hnone⟩ := mutate_unchanged hmut
    exact hout s.jobs _ (fun _ _ => rfl) fun _ _ => hc.2 id rfl hnone
  · rename_i m hmut
    have hundo := mutate_undo hc.1 hmut
    rw [State.enter]
    split
    · rw [hundo]
      exact hout s.jobs _ (fun _ _ => rfl) fun _ h => by cases h
    · rename_i hp
      refine ⟨inv.flag, fun w hmem => ⟨by simpa using hp, ?_⟩, inv.guarded⟩
      obtain rfl := Option.some.inj hmem
      rintro before m' heq
      obtain ⟨rfl, rfl⟩ := Writer.edit.inj heq
      exact ⟨rfl, hundo⟩

theorem inv_locked {s : State} (inv : Inv s) (hw : s.writer = none) {act : Act}
    (hc : Careful s act) {t : State} (hs : lockedStep env storePath s act = some t) : Inv t := by
  cases act with
  | edit nowMs e => exact inv_edit inv hw hc hs
  | pause nowMs id fault =>
    obtain rfl := Option.some.inj hs
    split
    · rename_i jobs hpause
      have hp : s.poisoned = false := by
        by_contra hno
        rw [hc (by simpa using hno)] at hpause
        cases hpause
      exact inv_save inv hp (by rfl) (by rfl) (by exact hw) fault
    · exact inv
  | collect nowMs fault =>
    simp only [lockedStep] at hs
    split at hs
    · split at hs
      · obtain rfl := Option.some.inj hs
        exact inv
      · rename_i hdue
        obtain rfl := Option.some.inj hs
        have hp : s.poisoned = false := by
          by_contra hno
          exact hdue (hc (by simpa using hno))
        exact inv_save inv hp (by rfl) (by rfl) (by exact hw) fault
    · cases hs
  | copy =>
    obtain ⟨tick, _, rfl⟩ := Option.map_eq_some_iff.mp hs
    exact inv_quiet inv rfl rfl hw
  | settle updatedMs laterMs result fault =>
    simp only [lockedStep] at hs
    split at hs
    · obtain rfl := Option.some.inj hs
      exact inv_save inv hc (by rfl) (by rfl) (by exact hw) fault
    · cases hs
  | execute nowMs id =>
    simp only [lockedStep] at hs
    split at hs
    · obtain rfl := Option.some.inj hs
      exact inv_quiet inv rfl rfl hw
    · obtain rfl := Option.some.inj hs
      exact inv
  | executed k updatedMs result =>
    obtain ⟨r, _, rfl⟩ := Option.map_eq_some_iff.mp hs
    refine ⟨inv.flag, fun w hmem => ?_, inv.guarded⟩
    by_cases hp : s.poisoned = true
    · rw [if_pos hp] at hmem
      cases hmem
    · rw [if_neg hp] at hmem
      obtain rfl := Option.some.inj hmem
      exact ⟨by simpa using hp, fun _ _ h => by cases h⟩
  | install k =>
    simp only [lockedStep] at hs
    split at hs
    · obtain rfl := Option.some.inj hs
      exact inv_quiet inv rfl rfl hw
    · cases hs
  | _ => cases hs

/-- The save of whoever holds the lock. -/
theorem inv_write {s : State} (inv : Inv s) {w : Writer} (hw : s.writer = some w)
    (fault : Option Text) : Inv (s.write fault w) := by
  obtain ⟨hp, hedit⟩ := inv.writer w hw
  have hsave : Inv ({ s with writer := none }.save fault) := inv_save inv hp (by rfl) (by rfl) (by rfl) fault
  cases w with
  | executed => exact hsave
  | edit before m =>
    obtain ⟨hjobs, hundo⟩ := hedit before m rfl
    cases fault with
    | none =>
      refine ⟨hsave.flag, hsave.writer, hsave.guarded, fun _ h => ?_, fun _ _ => rfl⟩
      cases h
    | some e =>
      refine ⟨hsave.flag, fun w hmem => ?_, hsave.guarded, fun _ _ => ?_, fun _ h => ?_⟩
      · cases hmem
      · change m.undo s.jobs = before
        rw [hjobs, hundo]
      · cases h

theorem inv_step {s : State} (inv : Inv s) {act : Act} (hc : Careful s act) {t : State}
    (hs : step env storePath s act = some t) : Inv t := by
  have hlocked (hs : (match s.writer with
      | none => lockedStep env storePath s act
      | some _ => none) = some t) : Inv t := by
    cases hw : s.writer with
    | none =>
      rw [hw] at hs
      exact inv_locked inv hw hc hs
    | some w =>
      rw [hw] at hs
      cases hs
  cases act with
  | write fault =>
    obtain ⟨w, hw, rfl⟩ := Option.map_eq_some_iff.mp hs
    exact inv_write inv hw fault
  | handle =>
    simp only [step] at hs
    split at hs
    · obtain rfl := Option.some.inj hs
      exact ⟨inv.flag, inv.writer, inv.guarded⟩
    · cases hs
  | load fails =>
    obtain rfl := Option.some.inj hs
    exact ⟨inv.flag, inv.writer, inv.guarded⟩
  | clear k =>
    simp only [step] at hs
    split at hs
    · obtain rfl := Option.some.inj hs
      exact ⟨rfl, fun w hw => ⟨rfl, (inv.writer w hw).2⟩, inv.guarded, trivial⟩
    · cases hs
  | poison k =>
    simp only [step] at hs
    split at hs
    · obtain rfl := Option.some.inj hs
      refine ⟨rfl, fun w hw => ?_, inv.guarded, trivial⟩
      rw [State.record, hc] at hw
      cases hw
    · cases hs
  | _ => exact hlocked hs

theorem inv_start (file : Option (List CronJob)) : Inv (start file) where
  flag := rfl
  writer w hw := by cases hw
  guarded := trivial

/-- Whatever is called, ticks, is loaded and fails, in any order. -/
theorem edits_atomic {file : Option (List CronJob)} {acts : List Act} {s : State}
    (hok : Along (step env storePath) Careful (start file) acts)
    (hr : run (step env storePath) (start file) acts = some s) : Guarded s.log := by
  have inv : Inv s := run_invariant (fun _ _ _ inv hc hs => inv_step inv hc hs) (inv_start file) hok hr
  exact inv.guarded

/-- No expression has an occurrence. -/
def plainEnv : Env := ⟨fun _ _ _ => none, fun s => s⟩

def everyMinute : NewJob where
  name := "water".toList
  schedule := ⟨"every".toList, none, some 60000, none, none⟩
  message := "water the plants".toList
  deliver := true
  channel := none
  «to» := none
  sessionKey := none
  maxRounds := none
  enabled := true

def wateringJob : CronJob := plainEnv.build 0 "j".toList everyMinute

/-- The job is added in memory and on its way to the file. -/
def entered : State :=
  { start none with
    jobs := [wateringJob]
    writer := some (.edit [] ⟨[wateringJob], List.filter fun j => j.id ≠ "j".toList,
      .job wateringJob⟩) }

/-- A job is added, and its removal meets a damaged store. -/
theorem edits_atomic_refused :
    ∃ s, run (step plainEnv "jobs.json".toList) (start none)
      [.edit 0 (.addJobExt 0 "j".toList everyMinute), .write none, .load true, .poison 0,
        .edit 1 (.removeJob "j".toList)] = some s ∧
      s.poisoned = true ∧ s.jobs = [wateringJob] ∧ s.file = some [wateringJob] ∧
      Guarded s.log := by
  have hadd : step plainEnv "jobs.json".toList (start none)
      (.edit 0 (.addJobExt 0 "j".toList everyMinute)) = some entered := rfl
  have hok : Along (step plainEnv "jobs.json".toList) Careful (start none)
      [.edit 0 (.addJobExt 0 "j".toList everyMinute), .write none, .load true, .poison 0,
        .edit 1 (.removeJob "j".toList)] := by
    refine along_cons ⟨fun j hj => (List.not_mem_nil hj).elim, fun _ h => by cases h⟩ hadd ?_
    refine along_cons trivial rfl (along_cons trivial rfl (along_cons rfl rfl ?_))
    refine along_cons ⟨trivial, fun id h hnone => ?_⟩ rfl trivial
    obtain rfl := Edit.removeJob.inj h
    cases hnone
  have hr : ∃ s, run (step plainEnv "jobs.json".toList) (start none)
      [.edit 0 (.addJobExt 0 "j".toList everyMinute), .write none, .load true, .poison 0,
        .edit 1 (.removeJob "j".toList)] = some s ∧
      s.poisoned = true ∧ s.jobs = [wateringJob] ∧ s.file = some [wateringJob] := by
    simp only [run_cons_iff, hadd]
    exact ⟨_, ⟨_, rfl, _, rfl, _, rfl, _, rfl, _, rfl, rfl⟩, rfl, rfl, rfl⟩
  obtain ⟨s, hr, hp, hj, hf⟩ := hr
  exact ⟨s, hr, hp, hj, hf, edits_atomic hok hr⟩

/-- The loop runs on after a load has failed, and saves what it collects. -/
theorem tick_overwrites :
    ∃ s, run (step plainEnv "jobs.json".toList)
      (start (some [wateringJob]))
      [.load false, .install 0, .clear 0, .load true, .poison 1, .collect 60000 none] = some s ∧
      ¬ Guarded s.log := by
  refine ⟨_, rfl, fun h => ?_⟩
  have hno : damaged [.loadFailed, .loadSucceeded] = false := h.2
  cases hno

end NemesisBot.Cron.Saving
