import NemesisBot.Cron.Ticks
import NemesisBot.Lib.Runs

/-! The tick loop among the calls that edit the jobs, each of them in one piece. -/
namespace NemesisBot.Cron.Firing
open Strings FirstKey Runs

inductive Event where
  /-- an edit or a pause goes through and leaves the job so; `none` when it is removed -/
  | edited (id : Text) (after : Option CronJob)
  /-- the jobs that a tick collects, as they were -/
  | collected (tickMs : Int) (due : List CronJob)
  /-- a handler starts; the job as the list has it at that moment -/
  | started (tickMs : Int) (id : Text) (found : Option CronJob)

structure State where
  jobs : List CronJob
  tick : Tick
  /-- the latest event first -/
  log : List Event

def start (jobs : List CronJob) : State := ⟨jobs, .idle, []⟩

inductive Act where
  | edit (nowMs : Int) (e : Edit)
  | pause (nowMs : Int) (id : Text)
  | collect (nowMs : Int)
  | copy
  | handle
  | settle (updatedMs laterMs : Int) (result : HandlerResult)

def State.leave (s : State) (id : Text) (jobs : List CronJob) : State :=
  { s with jobs := jobs, log := .edited id (findJob id jobs) :: s.log }

variable (env : Env)

def step (s : State) : Act → Option State
  | .edit nowMs e => some (match e.mutate env nowMs s.jobs with
    | .ok (.mutated m) => s.leave e.id m.jobs
    | _ => s)
  | .pause nowMs id => some (match pauseJob nowMs id s.jobs with
    | some jobs => s.leave id jobs
    | none => s)
  | .collect nowMs => match s.tick with
    | .idle =>
      let due := dueJobs nowMs s.jobs
      if due = [] then some s
      else some
        { jobs := collectAndResetDue nowMs s.jobs
          tick := .next nowMs (due.map CronJob.id)
          log := .collected nowMs due :: s.log }
    | _ => none
  | .copy => (s.tick.copy s.jobs).map fun tick => { s with tick := tick }
  | .handle => match s.tick with
    | .ready tickMs job due => some { s with
        tick := .handling tickMs job.id due
        log := .started tickMs job.id (findJob job.id s.jobs) :: s.log }
    | _ => none
  | .settle updatedMs laterMs result => match s.tick with
    | .handling tickMs id due => some { s with
        jobs := env.settle tickMs updatedMs laterMs id result s.jobs
        tick := .next tickMs due }
    | _ => none

/-- What the last collection with this job found. -/
def lastCollected (id : Text) : List Event → Option (Int × CronJob)
  | [] => none
  | .collected tickMs due :: log => match findJob id due with
    | some job => some (tickMs, job)
    | none => lastCollected id log
  | _ :: log => lastCollected id log

/-- The schedule with a run ahead that the last call left on an enabled job, until a tick
collects the job. -/
def promised (id : Text) : List Event → Option CronSchedule
  | [] => none
  | .edited i after :: log =>
    if i = id then
      (after.filter fun job => job.enabled && job.state.nextRunAtMs.isSome).map CronJob.schedule
    else promised id log
  | .collected _ due :: log => if id ∈ due.map CronJob.id then none else promised id log
  | .started _ _ _ :: log => promised id log

/-- A handler starts for an enabled job whose schedule is the one that was due. -/
def StartsDue : List Event → Prop
  | [] => True
  | .started tickMs id found :: log => StartsDue log ∧
      ∃ job due, found = some job ∧ job.enabled = true ∧ lastCollected id log = some (tickMs, due) ∧
        due.isDue tickMs = true ∧ due.schedule = job.schedule
  | _ :: log => StartsDue log

structure FiresBySchedule (s : State) : Prop where
  settled : ∀ job ∈ s.jobs, job.Settled
  starts : StartsDue s.log
  kept : ∀ id schedule, promised id s.log = some schedule →
    ∃ job, findJob id s.jobs = some job ∧ job.enabled = true ∧ job.schedule = schedule ∧
      job.state.nextRunAtMs.isSome = true

/-- The ids that a tick has collected and not yet started a handler for. -/
def waiting : Tick → List Text
  | .idle => []
  | .next _ due | .handling _ _ due => due
  | .ready _ job due => job.id :: due

/-- The id of the job that has been copied. -/
def copied : Tick → Option Text
  | .ready _ job _ => some job.id
  | _ => none

/-- What an edit may do to a job that waits: leave it on with its schedule, or take it away
before it is copied. -/
def MayEdit (s : State) (e : Edit) : Prop :=
  (∃ job, findJob e.id s.jobs = some job ∧ e.Leaves job) ∨
    e = .removeJob e.id ∧ copied s.tick ≠ some e.id

/-- No call takes the run from under a job that waits for its handler, and a schedule put in
while the handler ran still has an occurrence when the handler is done. -/
def Careful (s : State) : Act → Prop
  | .edit nowMs e => e.Fresh s.jobs ∧ ∀ m, e.mutate env nowMs s.jobs = .ok (.mutated m) →
      e.id ∈ waiting s.tick → MayEdit s e
  | .pause _ id => id ∉ waiting s.tick
  | .settle _ laterMs _ => ∀ tickMs id due, s.tick = .handling tickMs id due →
      ∀ job, findJob id s.jobs = some job → job.schedule.kind ≠ "at".toList →
        job.enabled = true → job.state.nextRunAtMs.isSome = true →
        (env.computeNextRun job.schedule laterMs).isSome = true
  | _ => True

def tickTime : Tick → Int
  | .idle => 0
  | .next tickMs _ | .ready tickMs _ _ | .handling tickMs _ _ => tickMs

/-- The id whose handler runs, and those that wait. -/
def underWay : Tick → List Text
  | .handling _ id due => id :: due
  | tick => waiting tick

/-- A job that waits was due, and if it is still there it is on with the schedule it had. -/
def Awaited (s : State) (id : Text) : Prop :=
  ∃ due, lastCollected id s.log = some (tickTime s.tick, due) ∧
    due.isDue (tickTime s.tick) = true ∧
    ∀ job, findJob id s.jobs = some job → job.enabled = true ∧ due.schedule = job.schedule

structure Inv (s : State) : Prop where
  nodup : (s.jobs.map CronJob.id).Nodup
  fires : FiresBySchedule s
  distinct : (underWay s.tick).Nodup
  awaited : ∀ id ∈ waiting s.tick, Awaited s id
  there : ∀ id, copied s.tick = some id → (findJob id s.jobs).isSome = true

variable {env : Env} {s t : State}

theorem FiresBySchedule.of_eq (h : FiresBySchedule s) (hj : t.jobs = s.jobs)
    (hl : t.log = s.log) : FiresBySchedule t :=
  ⟨hj ▸ h.settled, hl ▸ h.starts, hj ▸ hl ▸ h.kept⟩

theorem copied_waiting {tick : Tick} {id : Text} (h : copied tick = some id) :
    id ∈ waiting tick := by
  cases tick with
  | ready tickMs job due =>
    obtain rfl := Option.some.inj h
    exact List.mem_cons_self
  | _ => cases h

/-- What a call leaves of the job it is about, if that waits. -/
def LeavesWaiting (s : State) (id : Text) (after : List CronJob) : Prop :=
  (∃ job new, findJob id s.jobs = some job ∧ findJob id after = some new ∧
    (job.enabled = true → new.enabled = true ∧ new.schedule = job.schedule)) ∨
  findJob id after = none ∧ copied s.tick ≠ some id

theorem inv_leave (inv : Inv s) {id : Text} {jobs : List CronJob}
    (h : ChangesOnly id s.jobs jobs) (hw : id ∈ waiting s.tick → LeavesWaiting s id jobs) :
    Inv (s.leave id jobs) where
  nodup := h.nodup inv.nodup
  distinct := inv.distinct
  fires := by
    refine ⟨h.settled inv.fires.settled, inv.fires.starts, fun k schedule hk => ?_⟩
    rw [State.leave, promised] at hk
    split at hk
    · rename_i hid
      subst hid
      obtain ⟨job, hjob, rfl⟩ := Option.map_eq_some_iff.mp hk
      obtain ⟨hfind, hahead⟩ := Option.filter_eq_some_iff.mp hjob
      obtain ⟨hon, hnext⟩ := Bool.and_eq_true_iff.mp hahead
      exact ⟨job, hfind, hon, rfl, hnext⟩
    · rename_i hid
      obtain ⟨job, hfind, hjob⟩ := inv.fires.kept k schedule hk
      exact ⟨job, (h.others inv.nodup k (Ne.symm hid)).trans hfind, hjob⟩
  awaited k hk := by
    obtain ⟨due, hlast, hdue, hsame⟩ := inv.awaited k hk
    refine ⟨due, hlast, hdue, fun new hnew => ?_⟩
    by_cases hid : k = id
    · subst hid
      obtain ⟨job, new', hjob, hnew', hleaves⟩ | ⟨hgone, _⟩ := hw hk
      · obtain rfl : new' = new := Option.some.inj (hnew'.symm.trans hnew)
        obtain ⟨hon, hsched⟩ := hsame job hjob
        exact ⟨(hleaves hon).1, hsched.trans (hleaves hon).2.symm⟩
      · rw [State.leave, hgone] at hnew
        cases hnew
    · exact hsame new ((h.others inv.nodup k hid).symm.trans hnew)
  there k hk := by
    by_cases hid : k = id
    · subst hid
      obtain ⟨_, new, _, hnew, _⟩ | ⟨_, hno⟩ := hw (copied_waiting hk)
      · rw [State.leave, hnew]
        rfl
      · exact (hno hk).elim
    · rw [State.leave, h.others inv.nodup k hid]
      exact inv.there k hk

theorem inv_edit (inv : Inv s) {nowMs : Int} {e : Edit} (hc : Careful env s (.edit nowMs e))
    (hs : step env s (.edit nowMs e) = some t) : Inv t := by
  obtain rfl := Option.some.inj hs
  split
  · rename_i m hmut
    have hchange := changesOnly_mutate hc.1 hmut
    refine inv_leave inv hchange fun hw => ?_
    obtain ⟨job, hjob, hleaves⟩ | ⟨he, hno⟩ := hc.2 m hmut hw
    · obtain ⟨checkedMs, id, new, rfl, _⟩ | ⟨id, idx, job', rfl, _⟩ |
        ⟨job', new, hfind, hjobs, _, hrep⟩ := mutate_cases hmut
      · exact (hc.1 job (mem_of_findKey hjob) (key_of_findKey hjob)).elim
      · exact hleaves.elim
      · obtain rfl : job' = job := Option.some.inj (hfind.symm.trans hjob)
        have hid : new.id = e.id := hrep.id.trans (key_of_findKey hfind)
        refine .inl ⟨job', new, hfind, ?_, hrep.leaves hleaves⟩
        rw [hjobs, findJob, findKey_setKey hfind hid, if_pos rfl]
    · refine .inr ⟨?_, hno⟩
      rw [he] at hmut
      obtain ⟨idx, job, hidx, hget, hjobs, _⟩ := removeJob_mutated (Except.ok.inj hmut)
      have hid : job.id = e.id := by
        obtain ⟨hlt, hp, _⟩ := List.findIdx?_eq_some_iff_getElem.mp hidx
        rw [List.getElem?_eq_getElem hlt] at hget
        rw [← Option.some.inj hget]
        simpa using hp
      rw [hjobs, findJob, findKey_eraseIdx inv.nodup hget hid, if_pos rfl]
  · exact inv

theorem inv_pause (inv : Inv s) {nowMs : Int} {id : Text} (hc : Careful env s (.pause nowMs id))
    (hs : step env s (.pause nowMs id) = some t) : Inv t := by
  obtain rfl := Option.some.inj hs
  split
  · rename_i jobs hpause
    exact inv_leave inv (changesOnly_pauseJob hpause) fun hw => (hc hw).elim
  · exact inv

theorem inv_collect (inv : Inv s) {nowMs : Int} (hs : step env s (.collect nowMs) = some t) :
    Inv t := by
  simp only [step] at hs
  split at hs
  · split at hs
    · obtain rfl := Option.some.inj hs
      exact inv
    · obtain rfl := Option.some.inj hs
      have hnodup : ((dueJobs nowMs s.jobs).map CronJob.id).Nodup :=
        inv.nodup.sublist (List.filter_sublist.map CronJob.id)
      refine ⟨?_, ⟨fun job hjob => ?_, inv.fires.starts, fun id schedule hid => ?_⟩, hnodup,
        fun id hid => ?_, fun _ h => by cases h⟩
      · rw [map_id_collect]
        exact inv.nodup
      · obtain ⟨old, hold, rfl⟩ := List.mem_map.mp hjob
        split
        · exact fun _ => rfl
        · exact inv.fires.settled old hold
      · rw [promised] at hid
        split at hid
        · cases hid
        · rename_i hno
          obtain ⟨job, hfind, hjob⟩ := inv.fires.kept id schedule hid
          have hnot : ¬ job.isDue nowMs = true := fun hdue =>
            hno (key_of_findKey hfind ▸
              List.mem_map_of_mem (List.mem_filter.mpr ⟨mem_of_findKey hfind, hdue⟩))
          refine ⟨job, ?_, hjob⟩
          rw [findJob_collect, hfind, Option.map_some, if_neg hnot]
      · obtain ⟨job, hjob, rfl⟩ := List.mem_map.mp hid
        obtain ⟨hmem, hdue⟩ := List.mem_filter.mp hjob
        have hfound : findJob job.id (dueJobs nowMs s.jobs) = some job := findKey_of_mem hnodup hjob
        refine ⟨job, ?_, hdue, fun new hnew => ?_⟩
        · rw [lastCollected, hfound]
          rfl
        · rw [findJob_collect, findJob, findKey_of_mem inv.nodup hmem, Option.map_some,
            if_pos hdue] at hnew
          rw [← Option.some.inj hnew]
          exact ⟨(Bool.and_eq_true_iff.mp hdue).1, rfl⟩
  · cases hs

theorem inv_copy (inv : Inv s) (hs : step env s .copy = some t) : Inv t := by
  obtain ⟨jobs, tick, log⟩ := s
  obtain ⟨tick', htick, rfl⟩ := Option.map_eq_some_iff.mp hs
  cases tick with
  | next tickMs due =>
    cases due with
    | nil =>
      obtain rfl := Option.some.inj htick
      exact ⟨inv.nodup, inv.fires.of_eq rfl rfl, List.nodup_nil,
        fun id hid => (List.not_mem_nil hid).elim, fun _ h => by cases h⟩
    | cons id due =>
      simp only [Tick.copy] at htick
      split at htick
      · rename_i job hjob
        obtain rfl := Option.some.inj htick
        obtain rfl : job.id = id := key_of_findKey hjob
        refine ⟨inv.nodup, inv.fires.of_eq rfl rfl, inv.distinct, inv.awaited, fun k hk => ?_⟩
        obtain rfl := Option.some.inj hk
        rw [hjob]
        rfl
      · obtain rfl := Option.some.inj htick
        exact ⟨inv.nodup, inv.fires.of_eq rfl rfl, (List.nodup_cons.mp inv.distinct).2,
          fun k hk => inv.awaited k (List.mem_cons_of_mem id hk), fun _ h => by cases h⟩
  | _ => cases htick

theorem inv_handle (inv : Inv s) (hs : step env s .handle = some t) : Inv t := by
  obtain ⟨jobs, tick, log⟩ := s
  cases tick with
  | ready tickMs job due =>
    obtain rfl := Option.some.inj hs
    obtain ⟨found, hfound⟩ := Option.isSome_iff_exists.mp (inv.there job.id rfl)
    obtain ⟨due', hlast, hdue, hsame⟩ := inv.awaited job.id List.mem_cons_self
    obtain ⟨hon, hsched⟩ := hsame found hfound
    exact ⟨inv.nodup, ⟨inv.fires.settled,
      ⟨inv.fires.starts, found, due', hfound, hon, hlast, hdue, hsched⟩, inv.fires.kept⟩,
      inv.distinct, fun k hk => inv.awaited k (List.mem_cons_of_mem job.id hk),
      fun _ h => by cases h⟩
  | _ => cases hs

theorem inv_settle (inv : Inv s) {updatedMs laterMs : Int} {result : HandlerResult}
    (hc : Careful env s (.settle updatedMs laterMs result))
    (hs : step env s (.settle updatedMs laterMs result) = some t) : Inv t := by
  obtain ⟨jobs, tick, log⟩ := s
  cases tick with
  | handling tickMs id due =>
    obtain rfl := Option.some.inj hs
    have hchange : ChangesOnly id jobs
        (env.settle tickMs updatedMs laterMs id result jobs) := changesOnly_settle
    obtain ⟨hid, hdue⟩ := List.nodup_cons.mp inv.distinct
    refine ⟨hchange.nodup inv.nodup, ⟨hchange.settled inv.fires.settled, inv.fires.starts,
      fun k schedule hk => ?_⟩, hdue, fun k hk => ?_, fun _ h => by cases h⟩
    · obtain ⟨job, hjob, hon, hsched, hnext⟩ := inv.fires.kept k schedule hk
      by_cases hk : k = id
      · subst hk
        obtain ⟨after, hafter, hon', hsched', hnext'⟩ := @findJob_settle env tickMs updatedMs
          laterMs k result jobs job inv.nodup hjob hon hnext fun hkind =>
            hc tickMs k due rfl job hjob hkind hon hnext
        exact ⟨after, hafter, hon', hsched'.trans hsched, hnext'⟩
      · exact ⟨job, (hchange.others inv.nodup k hk).trans hjob, hon, hsched, hnext⟩
    · have hne : k ≠ id := fun he => hid (he ▸ hk)
      obtain ⟨due', hlast, hisdue, hsame⟩ := inv.awaited k hk
      refine ⟨due', hlast, hisdue, fun job hjob => ?_⟩
      exact hsame job ((hchange.others inv.nodup k hne).symm.trans hjob)
  | _ => cases hs

theorem inv_step (inv : Inv s) {act : Act} (hc : Careful env s act)
    (hs : step env s act = some t) : Inv t := by
  cases act with
  | edit nowMs e => exact inv_edit inv hc hs
  | pause nowMs id => exact inv_pause inv hc hs
  | collect nowMs => exact inv_collect inv hs
  | copy => exact inv_copy inv hs
  | handle => exact inv_handle inv hs
  | settle updatedMs laterMs result => exact inv_settle inv hc hs

/-- Whatever the calls and the steps of the ticks interleave to. -/
theorem fires_by_schedule {jobs : List CronJob} (hn : (jobs.map CronJob.id).Nodup)
    (hj : ∀ job ∈ jobs, job.Settled) {acts : List Act}
    (hok : Along (step env) (Careful env) (start jobs) acts)
    (hr : run (step env) (start jobs) acts = some s) : FiresBySchedule s := by
  have hstart : Inv (start jobs) :=
    ⟨hn, ⟨hj, trivial, fun _ _ h => by cases h⟩, List.nodup_nil,
      fun id hid => (List.not_mem_nil hid).elim, fun _ h => by cases h⟩
  have inv : Inv s := run_invariant (fun _ _ _ inv hc hs => inv_step inv hc hs) hstart hok hr
  exact inv.fires

/-- No expression has an occurrence. -/
def mute : Env := ⟨fun _ _ _ => none, fun s => s⟩

/-- A job that runs every minute from time 0 on. -/
def minutely (id : Text) : CronJob :=
  mute.build 0 id ⟨id, ⟨"every".toList, none, some 60000, none, none⟩, "tick".toList, true, none,
    none, none, none, true⟩

def pair : List CronJob := [minutely "a".toList, minutely "b".toList]

/-- The tick has collected both jobs and runs the handler of the first. -/
def firstRuns : State where
  jobs := pair.map fun job => job.setNextRun none
  tick := .handling 60000 "a".toList ["b".toList]
  log := [.started 60000 "a".toList (some ((minutely "a".toList).setNextRun none)),
    .collected 60000 pair]

theorem firstRuns_reached :
    run (step mute) (start pair) [.collect 60000, .copy, .handle] = some firstRuns := rfl

/-- While the first handler runs, its own job is paused. -/
theorem fires_by_schedule_paused :
    ∃ s, run (step mute) (start pair) ([.collect 60000, .copy, .handle] ++
        [.pause 61000 "a".toList, .settle 62000 62000 none, .copy, .handle]) = some s ∧
      FiresBySchedule s := by
  have hok : Along (step mute) (Careful mute) (start pair) ([.collect 60000, .copy, .handle] ++
      [.pause 61000 "a".toList, .settle 62000 62000 none, .copy, .handle]) := by
    refine along_cons trivial rfl (along_cons trivial rfl (along_cons trivial
      (t := firstRuns) rfl ?_))
    have hno : "a".toList ∉ ["b".toList] := by decide
    refine along_cons hno rfl (along_cons ?_ rfl (along_cons trivial rfl
      (along_cons trivial rfl trivial)))
    intro tickMs id due h job hjob _ hon _
    obtain ⟨rfl, rfl, rfl⟩ := Tick.handling.inj h
    obtain rfl := Option.some.inj hjob
    cases hon
  obtain ⟨s, hs⟩ : ∃ s, run (step mute) (start pair) ([.collect 60000, .copy, .handle] ++
      [.pause 61000 "a".toList, .settle 62000 62000 none, .copy, .handle]) = some s := by
    rw [run_append, firstRuns_reached]
    exact ⟨_, rfl⟩
  have hsettled : ∀ job ∈ pair, job.Settled := by
    intro job hjob hon
    obtain rfl | hjob := List.mem_cons.mp hjob
    · cases hon
    · obtain rfl := List.mem_singleton.mp hjob
      cases hon
  exact ⟨s, hs, fires_by_schedule (by decide) hsettled hok hs⟩

/-- While the first handler runs, the second job is paused, and fires all the same. -/
theorem paused_fires :
    ∃ s, run (step mute) (start pair) ([.collect 60000, .copy, .handle] ++
        [.pause 61000 "b".toList, .settle 62000 62000 none, .copy, .handle]) = some s ∧
      ¬ FiresBySchedule s := by
  rw [run_append, firstRuns_reached]
  refine ⟨_, rfl, fun h => ?_⟩
  obtain ⟨_, job, due, hfound, hon, _⟩ := h.starts
  obtain rfl := Option.some.inj hfound
  cases hon

end NemesisBot.Cron.Firing
