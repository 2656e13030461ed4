import NemesisBot.Cron.Jobs

/-! What the tick loop, a run by hand and the pause handle of a handler do to the jobs. -/
namespace NemesisBot.Cron
open Strings FirstKey

def CronJob.isDue (job : CronJob) (nowMs : Int) : Bool :=
  job.enabled && job.state.nextRunAtMs.any fun t => t ≤ nowMs

def CronJob.setNextRun (job : CronJob) (t : Option Int) : CronJob :=
  { job with state.nextRunAtMs := t }

def dueJobs (nowMs : Int) (jobs : List CronJob) : List CronJob :=
  jobs.filter fun job => job.isDue nowMs

/-- The jobs afterwards; what is due is `dueJobs`. -/
def collectAndResetDue (nowMs : Int) (jobs : List CronJob) : List CronJob :=
  jobs.map fun job => if job.isDue nowMs then job.setNextRun none else job

/-- `none` when the job is not there or is switched off already. -/
def pauseJob (nowMs : Int) (id : Text) (jobs : List CronJob) : Option (List CronJob) :=
  match findJob id jobs with
  | some job =>
    if job.enabled then
      some (setJob id
        { job with enabled := false, state.nextRunAtMs := none, updatedAtMs := nowMs } jobs)
    else none
  | none => none

/-- What the handler returns; `none` when there is no handler. -/
abbrev HandlerResult := Option (Except Text Text)

/-- The run is written into the job; `good` is the status of one without an error. -/
def CronJob.ran (job : CronJob) (atMs updatedMs : Int) (good : Text) (result : HandlerResult) :
    CronJob :=
  let status := match result with
    | some (.error _) => "error".toList
    | _ => good
  let error := match result with
    | some (.error e) => some e
    | _ => none
  let state : CronJobState :=
    { job.state with lastRunAtMs := some atMs, lastStatus := some status, lastError := error }
  { job with state := state.pushHistory atMs status error, updatedAtMs := updatedMs }

/-- A one-off that has run is over, unless it was given a new time meanwhile. -/
def Env.afterRun (env : Env) (laterMs : Int) (job : CronJob) : CronJob :=
  if job.schedule.kind = "at".toList then
    if job.deleteAfterRun = true ∧ job.state.lastStatus = some "ok".toList then job
    else if job.state.nextRunAtMs.isSome then job
    else { job with enabled := false, state.nextRunAtMs := none }
  else if job.enabled then job.setNextRun (env.computeNextRun job.schedule laterMs)
  else job.setNextRun none

/-- A one-off that went well and has no new time goes. -/
def CronJob.isSpent (job : CronJob) : Bool :=
  job.deleteAfterRun && job.state.lastStatus = some "ok".toList && job.state.nextRunAtMs.isNone

/-- The update after a scheduled run; the clock is read twice. -/
def Env.settle (env : Env) (tickMs updatedMs laterMs : Int) (id : Text) (result : HandlerResult)
    (jobs : List CronJob) : List CronJob :=
  let updated := match findJob id jobs with
    | some job => setJob id (env.afterRun laterMs (job.ran tickMs updatedMs "ok".toList result)) jobs
    | none => jobs
  updated.filter fun j => j.id ≠ id || !j.isSpent

/-- The update after a run by hand. -/
def executed (nowMs updatedMs : Int) (id : Text) (result : HandlerResult) (jobs : List CronJob) :
    List CronJob :=
  match findJob id jobs with
  | some job => setJob id (job.ran nowMs updatedMs "executed".toList result) jobs
  | none => jobs

/-- Where the tick loop stands: the ids collected at `tickMs` that are still to come, the job
copied for its handler, the job whose handler runs. -/
inductive Tick where
  | idle
  | next (tickMs : Int) (due : List Text)
  | ready (tickMs : Int) (job : CronJob) (due : List Text)
  | handling (tickMs : Int) (id : Text) (due : List Text)

/-- The next id is looked up; a job that is gone is passed over. -/
def Tick.copy (jobs : List CronJob) : Tick → Option Tick
  | .next _ [] => some .idle
  | .next tickMs (id :: due) => match findJob id jobs with
    | some job => some (.ready tickMs job due)
    | none => some (.next tickMs due)
  | _ => none

/-! What these changes leave alone. -/

/-- The jobs change at one id only. -/
structure ChangesOnly (id : Text) (jobs after : List CronJob) : Prop where
  nodup : (jobs.map CronJob.id).Nodup → (after.map CronJob.id).Nodup
  settled : (∀ job ∈ jobs, job.Settled) → ∀ job ∈ after, job.Settled
  others : (jobs.map CronJob.id).Nodup → ∀ k, k ≠ id → findJob k after = findJob k jobs

theorem changesOnly_setJob {id : Text} {jobs : List CronJob} {job after : CronJob}
    (hf : findJob id jobs = some job) (hid : after.id = id)
    (hs : job.Settled → after.Settled) : ChangesOnly id jobs (setJob id after jobs) where
  nodup hn := by rwa [map_key_setKey hid]
  settled hall j hj := by
    cases mem_setKey hj with
    | inl hnew =>
      subst hnew
      exact hs (hall job (mem_of_findKey hf))
    | inr hold => exact hall j hold
  others _ k hk := by rw [findJob, findKey_setKey hf hid, if_neg hk]

theorem changesOnly_mutate {env : Env} {nowMs : Int} {jobs : List CronJob} {e : Edit}
    {m : Mutation} (hfresh : e.Fresh jobs) (h : e.mutate env nowMs jobs = .ok (.mutated m)) :
    ChangesOnly e.id jobs m.jobs := by
  obtain ⟨checkedMs, id, new, rfl, hjobs, _⟩ | ⟨id, idx, job, rfl, hidx, hget, hjobs, _⟩ |
    ⟨job, after, hfind, hjobs, _, hrep⟩ := mutate_cases h
  · have hno : id ∉ jobs.map CronJob.id := by
      intro hmem
      obtain ⟨j, hj, he⟩ := List.mem_map.mp hmem
      exact hfresh j hj he
    rw [hjobs]
    refine ⟨fun hn => ?_, fun hall j hj => ?_, fun _ k hk => ?_⟩
    · rw [List.map_append]
      refine List.nodup_append.mpr ⟨hn, List.nodup_singleton _, fun a ha b hb => ?_⟩
      have hb' : b = id := List.mem_singleton.mp hb
      rintro rfl
      exact hno (hb' ▸ ha)
    · cases List.mem_append.mp hj with
      | inl hold => exact hall j hold
      | inr hnew =>
        rw [List.mem_singleton.mp hnew]
        exact build_settled id new
    · rw [findJob, findKey_concat hno rfl]
      exact if_neg hk
  · have hid : job.id = id := by
      obtain ⟨hlt, hp, _⟩ := List.findIdx?_eq_some_iff_getElem.mp hidx
      rw [List.getElem?_eq_getElem hlt] at hget
      rw [← Option.some.inj hget]
      simpa using hp
    rw [hjobs]
    refine ⟨fun hn => hn.sublist ((List.eraseIdx_sublist jobs idx).map CronJob.id),
      fun hall j hj => hall j ((List.eraseIdx_sublist jobs idx).subset hj), fun hn k hk => ?_⟩
    rw [findJob, findKey_eraseIdx hn hget hid]
    exact if_neg hk
  · rw [hjobs]
    exact changesOnly_setJob hfind (hrep.id.trans (key_of_findKey hfind)) hrep.settled

theorem changesOnly_pauseJob {nowMs : Int} {id : Text} {jobs after : List CronJob}
    (h : pauseJob nowMs id jobs = some after) : ChangesOnly id jobs after := by
  rw [pauseJob] at h
  split at h
  · rename_i job hf
    split at h
    · obtain rfl := Option.some.inj h
      have hid : job.id = id := key_of_findKey hf
      exact changesOnly_setJob hf hid fun _ _ => rfl
    · cases h
  · cases h

theorem findJob_collect (nowMs : Int) (jobs : List CronJob) (k : Text) :
    findJob k (collectAndResetDue nowMs jobs) =
      (findJob k jobs).map fun job => if job.isDue nowMs then job.setNextRun none else job := by
  refine findKey_map fun job => ?_
  split
  · rfl
  · rfl

theorem map_id_collect (nowMs : Int) (jobs : List CronJob) :
    (collectAndResetDue nowMs jobs).map CronJob.id = jobs.map CronJob.id := by
  rw [collectAndResetDue, List.map_map]
  refine List.map_congr_left fun job _ => ?_
  simp only [Function.comp_apply]
  split
  · rfl
  · rfl

theorem afterRun_id (env : Env) (laterMs : Int) (job : CronJob) :
    (env.afterRun laterMs job).id = job.id := by
  rw [Env.afterRun]
  split
  · split
    · rfl
    · split
      · rfl
      · rfl
  · split
    · rfl
    · rfl

theorem afterRun_settled {env : Env} {laterMs : Int} {job : CronJob} (h : job.Settled) :
    (env.afterRun laterMs job).Settled := by
  rw [Env.afterRun]
  split
  · split
    · exact h
    · split
      · exact h
      · exact fun _ => rfl
  · split
    · rename_i hon
      intro hoff
      have hoff' : job.enabled = false := hoff
      rw [hoff'] at hon
      cases hon
    · exact fun _ => rfl

/-- A schedule with a run ahead outlives the update after a run. -/
theorem afterRun_kept {env : Env} {laterMs : Int} {job : CronJob} (hon : job.enabled = true)
    (hnext : job.state.nextRunAtMs.isSome = true)
    (h : job.schedule.kind ≠ "at".toList → (env.computeNextRun job.schedule laterMs).isSome = true) :
    (env.afterRun laterMs job).enabled = true ∧
      (env.afterRun laterMs job).schedule = job.schedule ∧
      (env.afterRun laterMs job).state.nextRunAtMs.isSome = true := by
  rw [Env.afterRun]
  split
  · split
    · exact ⟨hon, rfl, hnext⟩
    · exact ⟨hon, rfl, hnext⟩
  · rename_i hkind
    exact ⟨hon, rfl, h hkind⟩

section Settle
variable {env : Env} {tickMs updatedMs laterMs : Int} {id : Text} {result : HandlerResult}
  {jobs : List CronJob}

theorem changesOnly_filter (p : CronJob → Bool) (hp : ∀ j ∈ jobs, j.id ≠ id → p j = true) :
    ChangesOnly id jobs (jobs.filter p) where
  nodup hn := hn.sublist (List.filter_sublist.map CronJob.id)
  settled hall j hj := hall j (List.mem_filter.mp hj).1
  others hn k hk := by
    rw [findJob, findKey_filter hn]
    cases hf : findKey CronJob.id k jobs with
    | none => exact hf.symm
    | some job =>
      have hne : job.id ≠ id := fun he => hk ((key_of_findKey hf).symm.trans he)
      rw [Option.filter_some_pos (hp job (mem_of_findKey hf) hne)]
      exact hf.symm

theorem ChangesOnly.trans {after last : List CronJob} (h : ChangesOnly id jobs after)
    (h' : ChangesOnly id after last) : ChangesOnly id jobs last where
  nodup hn := h'.nodup (h.nodup hn)
  settled hall := h'.settled (h.settled hall)
  others hn k hk := (h'.others (h.nodup hn) k hk).trans (h.others hn k hk)

theorem settle_of_found {job : CronJob} (hf : findJob id jobs = some job) :
    env.settle tickMs updatedMs laterMs id result jobs =
      (setJob id (env.afterRun laterMs (job.ran tickMs updatedMs "ok".toList result)) jobs).filter
        fun j => j.id ≠ id || !j.isSpent := by
  rw [Env.settle, hf]

theorem changesOnly_settle :
    ChangesOnly id jobs (env.settle tickMs updatedMs laterMs id result jobs) := by
  have hfilter (l : List CronJob) :
      ChangesOnly id l (l.filter fun j => j.id ≠ id || !j.isSpent) :=
    changesOnly_filter _ fun j _ hne => by simp [hne]
  cases hf : findJob id jobs with
  | none =>
    rw [Env.settle, hf]
    exact hfilter jobs
  | some job =>
    rw [settle_of_found hf]
    have hid : job.id = id := key_of_findKey hf
    refine (changesOnly_setJob hf ?_ fun hs => ?_).trans (hfilter _)
    · rw [afterRun_id]
      exact hid
    · exact afterRun_settled hs

/-- A job whose schedule has a run ahead stays on with it. -/
theorem findJob_settle {job : CronJob} (hn : (jobs.map CronJob.id).Nodup)
    (hf : findJob id jobs = some job) (hon : job.enabled = true)
    (hnext : job.state.nextRunAtMs.isSome = true)
    (h : job.schedule.kind ≠ "at".toList → (env.computeNextRun job.schedule laterMs).isSome = true) :
    ∃ after, findJob id (env.settle tickMs updatedMs laterMs id result jobs) = some after ∧
      after.enabled = true ∧ after.schedule = job.schedule ∧
      after.state.nextRunAtMs.isSome = true := by
  set after := env.afterRun laterMs (job.ran tickMs updatedMs "ok".toList result)
  have hjob : job.id = id := key_of_findKey hf
  have hid : after.id = id := (afterRun_id env laterMs _).trans hjob
  obtain ⟨hon', hsched, hnext'⟩ : after.enabled = true ∧ after.schedule = job.schedule ∧
      after.state.nextRunAtMs.isSome = true := afterRun_kept hon hnext h
  have hset : (setJob id after jobs).map CronJob.id = jobs.map CronJob.id := map_key_setKey hid
  refine ⟨after, ?_, hon', hsched, hnext'⟩
  rw [settle_of_found hf, findJob, findKey_filter (hset ▸ hn), findKey_setKey hf hid, if_pos rfl]
  refine Option.filter_some_pos ?_
  have hfresh : after.state.nextRunAtMs.isNone = false := by
    rw [← Option.not_isSome, hnext']
    rfl
  simp [CronJob.isSpent, hfresh]

end Settle

end NemesisBot.Cron
