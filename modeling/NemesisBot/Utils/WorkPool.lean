import NemesisBot.Lib.Runs

/-! The ordered pool: submitters, one driver and cancellers, each acting in small steps. -/
namespace NemesisBot.WorkPool
open Runs

def maxWord : Nat := 2 ^ 64 - 1

/-- The permits are not read by the ordered pool. -/
structure PoolLimits where
  maxPending : Nat
  maxInputBytes : Nat
  word : maxInputBytes ≤ maxWord

structure PoolOverloaded where
  pending : Nat
  maxPending : Nat
  retainedInputBytes : Nat
  maxInputBytes : Nat

@[ext]
structure Gauge where
  pending : Nat
  retainedInputBytes : Nat
  deriving DecidableEq

/-- The check adds with saturation, the booking with wrap-around. -/
def reserve (limits : PoolLimits) (g : Gauge) (inputBytes : Nat) : Except PoolOverloaded Gauge :=
  if limits.maxPending ≤ g.pending ∨
      limits.maxInputBytes < min (g.retainedInputBytes + inputBytes) maxWord then
    .error ⟨g.pending, limits.maxPending, g.retainedInputBytes, limits.maxInputBytes⟩
  else .ok ⟨g.pending + 1, (g.retainedInputBytes + inputBytes) % 2 ^ 64⟩

/-- Dropping the guard. -/
def Gauge.release (g : Gauge) (inputBytes : Nat) : Gauge :=
  ⟨g.pending - 1, g.retainedInputBytes - inputBytes⟩

/-- How the future of a job went away: given back by the channel, skipped by the driver, dropped
with the channel, stopped by its runtime, unwound, or run to its end. -/
inductive Ending where
  | rejected
  | skipped
  | dropped
  | aborted
  | panicked
  | completed
  deriving DecidableEq

/-- `taken` is out of the channel and not yet spawned, `spawned` not yet polled; in `finishing`
the task has returned and its guard is gone, the reply is still to be sent. -/
inductive Phase where
  | unused
  | reserved
  | numbered
  | queued
  | taken
  | spawned
  | suspended
  | polling
  | finishing
  | ended (how : Ending)
  deriving DecidableEq

/-- The future still owns its guard. -/
def Phase.holds : Phase → Bool
  | .unused | .finishing | .ended _ => false
  | _ => true

/-- From the spawn to the end of the task. -/
def Phase.alive : Phase → Bool
  | .spawned | .suspended | .polling | .finishing => true
  | _ => false

def Phase.done : Phase → Bool
  | .unused | .ended _ => true
  | _ => false

theorem Phase.not_alive_of_done {p : Phase} (h : p.done = true) : p.alive = false := by
  cases p <;> first | rfl | cases h

theorem Phase.not_holds_of_done {p : Phase} (h : p.done = true) : p.holds = false := by
  cases p <;> first | rfl | cases h

def Phase.hasId : Phase → Bool
  | .unused | .reserved => false
  | _ => true

/-- The channel took the job, so the submitter has its `WorkTask`. -/
def Phase.sent : Phase → Bool
  | .unused | .reserved | .numbered | .ended .rejected => false
  | _ => true

/-- `aborted` is what the abort handle sets. `cancelling` is a cancel that has set the flag and
not yet looked at the slot, `cancelDone` one that has returned. -/
structure OrderedJob where
  id : Nat
  inputBytes : Nat
  cancelled : Bool
  phase : Phase
  aborted : Bool
  cancelling : Bool
  cancelDone : Bool

def OrderedJob.unused : OrderedJob := ⟨0, 0, false, .unused, false, false, false⟩

@[simp, grind =] def OrderedJob.booked (inputBytes : Nat) (job : OrderedJob) : OrderedJob :=
  { job with inputBytes := inputBytes, phase := .reserved }

@[simp, grind =] def OrderedJob.numbered (id : Nat) (job : OrderedJob) : OrderedJob :=
  { job with id := id, phase := .numbered }

/-- The flag of `cancel`. -/
@[simp, grind =] def OrderedJob.setFlag (job : OrderedJob) : OrderedJob :=
  { job with cancelled := true, cancelling := true }

@[simp, grind =] def OrderedJob.abort (job : OrderedJob) : OrderedJob := { job with aborted := true }

/-- `cancel` has returned. -/
@[simp, grind =] def OrderedJob.cancelReturns (job : OrderedJob) : OrderedJob :=
  { job with cancelling := false, cancelDone := true }

/-- Where `run_ordered_driver` stands in its loop; `spawned` is before the slot is published,
`finished` before it is cleared. -/
inductive Driver where
  | waiting
  | received (job : Nat)
  | checked (job : Nat)
  | spawned (job : Nat)
  | awaiting (job : Nat)
  | finished (job : Nat)
  | gone
  deriving DecidableEq

/-- The job that the driver has received and not yet spawned. -/
def Driver.inHand : Driver → List Nat
  | .received j | .checked j => [j]
  | _ => []

/-- The driver waits for the channel or for a task. -/
def Driver.atAwait : Driver → Bool
  | .waiting | .awaiting _ => true
  | _ => false

theorem Driver.atAwait_cases {d : Driver} (h : d.atAwait = true) :
    d = .waiting ∨ ∃ j, d = .awaiting j := by
  cases d <;> first | exact .inl rfl | exact .inr ⟨_, rfl⟩ | cases h

/-- Jobs are numbered by their reservation. `slot` is the job whose id and abort handle are
published. `accepted`, `started` and `aborts` keep the history: what the channel took, what was
polled for the first time, and whose cancel aborted which job. -/
structure State where
  jobs : Nat → OrderedJob
  count : Nat
  gauge : Gauge
  nextJobId : Nat
  queue : List Nat
  closed : Bool
  driver : Driver
  slot : Option Nat
  accepted : List Nat
  started : List Nat
  aborts : List (Nat × Nat)

def start : State := ⟨fun _ => .unused, 0, ⟨0, 0⟩, 1, [], false, .waiting, none, [], [], []⟩

inductive Label where
  | reserve (inputBytes : Nat)
  | takeId (job : Nat)
  | takeIdElsewhere
  | send (job : Nat)
  | receive (job : Nat)
  | check (job : Nat)
  | spawn (job : Nat)
  | publish (job : Nat)
  | join (job : Nat)
  | clear (job : Nat)
  | poll (job : Nat)
  | suspend (job : Nat)
  | complete (job : Nat)
  | reply (job : Nat)
  | unwind (job : Nat)
  | reap (job : Nat)
  | setFlag (job : Nat)
  | abortSlot (job : Nat)
  | shutdown
  | drain (job : Nat)
  | halt (job : Nat)

def State.modify (s : State) (j : Nat) (f : OrderedJob → OrderedJob) : State :=
  { s with jobs := Function.update s.jobs j (f (s.jobs j)) }

def State.setPhase (s : State) (j : Nat) (p : Phase) : State :=
  s.modify j fun job => { job with phase := p }

/-- The phase changes and the guard goes. -/
@[simp] def State.release (s : State) (j : Nat) (p : Phase) : State :=
  { s.setPhase j p with gauge := s.gauge.release (s.jobs j).inputBytes }

/-- The channel holds `max_pending` jobs. -/
def State.full (limits : PoolLimits) (s : State) : Prop := limits.maxPending ≤ s.queue.length

instance (limits : PoolLimits) (s : State) : Decidable (s.full limits) :=
  inferInstanceAs (Decidable (_ ≤ _))

/-- The abort of `cancel`, where the slot holds a job with the canceller's id. -/
def State.abort (s : State) (j : Nat) : State :=
  match s.slot with
  | some k =>
    if (s.jobs k).id = (s.jobs j).id then
      { s.modify k OrderedJob.abort with aborts := s.aborts ++ [(j, k)] }
    else s
  | none => s

/-- `shutdown` is the end of the driver's runtime, or the last pool dropped; what is left in the
channel and the running task go one after another. -/
def enabled (s : State) : Label → Prop
  | .reserve inputBytes => inputBytes ≤ maxWord
  | .takeId j => (s.jobs j).phase = .reserved
  | .takeIdElsewhere => True
  | .send j => (s.jobs j).phase = .numbered
  | .receive j => s.driver = .waiting ∧ s.queue.head? = some j
  | .check j => s.driver = .received j
  | .spawn j => s.driver = .checked j
  | .publish j => s.driver = .spawned j
  | .join j => s.driver = .awaiting j ∧ (s.jobs j).phase.done = true
  | .clear j => s.driver = .finished j
  | .poll j => ((s.jobs j).phase = .spawned ∨ (s.jobs j).phase = .suspended) ∧ (s.jobs j).aborted = false
  | .suspend j => (s.jobs j).phase = .polling
  | .complete j => (s.jobs j).phase = .polling
  | .reply j => (s.jobs j).phase = .finishing
  | .unwind j => (s.jobs j).phase = .polling
  | .reap j => ((s.jobs j).phase = .spawned ∨ (s.jobs j).phase = .suspended) ∧ (s.jobs j).aborted = true
  | .setFlag j => (s.jobs j).phase.sent = true
  | .abortSlot j => (s.jobs j).cancelling = true
  | .shutdown => s.driver.atAwait = true
  | .drain j => s.driver = .gone ∧ s.queue.head? = some j
  | .halt j => s.driver = .gone ∧ ((s.jobs j).phase = .spawned ∨ (s.jobs j).phase = .suspended)

instance (s : State) : DecidablePred (enabled s) := fun i => by
  cases i <;> simp only [enabled] <;> infer_instance

def effect (limits : PoolLimits) (s : State) : Label → State
  | .reserve inputBytes =>
    match reserve limits s.gauge inputBytes with
    | .ok gauge =>
      { s.modify s.count (OrderedJob.booked inputBytes) with
        count := s.count + 1
        gauge := gauge }
    | .error _ => s
  | .takeId j =>
    { s.modify j (OrderedJob.numbered s.nextJobId) with
      nextJobId := (s.nextJobId + 1) % 2 ^ 64 }
  | .takeIdElsewhere => { s with nextJobId := (s.nextJobId + 1) % 2 ^ 64 }
  | .send j =>
    if s.closed = true ∨ s.full limits then s.release j (.ended .rejected)
    else { s.setPhase j .queued with queue := s.queue ++ [j], accepted := s.accepted ++ [j] }
  | .receive j => { s.setPhase j .taken with queue := s.queue.tail, driver := .received j }
  | .check j =>
    if (s.jobs j).cancelled = true then
      { s.release j (.ended .skipped) with driver := .waiting }
    else { s with driver := .checked j }
  | .spawn j => { s.setPhase j .spawned with driver := .spawned j }
  | .publish j => { s with driver := .awaiting j, slot := some j }
  | .join j => { s with driver := .finished j }
  | .clear _ => { s with driver := .waiting, slot := none }
  | .poll j =>
    { s.setPhase j .polling with
      started := if (s.jobs j).phase = .spawned then s.started ++ [j] else s.started }
  | .suspend j =>
    if (s.jobs j).aborted = true then s.release j (.ended .aborted) else s.setPhase j .suspended
  | .complete j => s.release j .finishing
  | .reply j => s.setPhase j (.ended .completed)
  | .unwind j => s.release j (.ended .panicked)
  | .reap j => s.release j (.ended .aborted)
  | .setFlag j => s.modify j OrderedJob.setFlag
  | .abortSlot j => (s.abort j).modify j OrderedJob.cancelReturns
  | .shutdown => { s with driver := .gone, closed := true }
  | .drain j => { s.release j (.ended .dropped) with queue := s.queue.tail }
  | .halt j => s.release j (.ended .aborted)

def step (limits : PoolLimits) (s : State) (i : Label) : Option State :=
  if enabled s i then some (effect limits s i) else none

theorem step_eq_some {limits : PoolLimits} {s t : State} {i : Label} :
    step limits s i = some t ↔ enabled s i ∧ effect limits s i = t := by
  simp [step]

/-- The jobs that own a reservation. -/
def State.holders (s : State) : Finset Nat :=
  (Finset.range s.count).filter fun j => (s.jobs j).phase.holds = true

def State.retained (s : State) : Nat := ∑ j ∈ s.holders, (s.jobs j).inputBytes

section
variable (s : State) (j k : Nat)

@[simp] theorem jobs_modify (f : OrderedJob → OrderedJob) :
    (s.modify j f).jobs k = if k = j then f (s.jobs j) else s.jobs k :=
  Function.update_apply ..

section
variable (f : OrderedJob → OrderedJob)

@[simp] theorem count_modify : (s.modify j f).count = s.count := rfl
@[simp] theorem gauge_modify : (s.modify j f).gauge = s.gauge := rfl
@[simp] theorem nextJobId_modify : (s.modify j f).nextJobId = s.nextJobId := rfl
@[simp] theorem queue_modify : (s.modify j f).queue = s.queue := rfl
@[simp] theorem driver_modify : (s.modify j f).driver = s.driver := rfl
@[simp] theorem slot_modify : (s.modify j f).slot = s.slot := rfl
@[simp] theorem accepted_modify : (s.modify j f).accepted = s.accepted := rfl
@[simp] theorem started_modify : (s.modify j f).started = s.started := rfl
@[simp] theorem aborts_modify : (s.modify j f).aborts = s.aborts := rfl

end

section
variable (p : Phase)

@[simp] theorem count_setPhase : (s.setPhase j p).count = s.count := rfl
@[simp] theorem gauge_setPhase : (s.setPhase j p).gauge = s.gauge := rfl
@[simp] theorem nextJobId_setPhase : (s.setPhase j p).nextJobId = s.nextJobId := rfl
@[simp] theorem queue_setPhase : (s.setPhase j p).queue = s.queue := rfl
@[simp] theorem driver_setPhase : (s.setPhase j p).driver = s.driver := rfl
@[simp] theorem slot_setPhase : (s.setPhase j p).slot = s.slot := rfl
@[simp] theorem accepted_setPhase : (s.setPhase j p).accepted = s.accepted := rfl
@[simp] theorem started_setPhase : (s.setPhase j p).started = s.started := rfl
@[simp] theorem aborts_setPhase : (s.setPhase j p).aborts = s.aborts := rfl

end

@[simp] theorem phase_setPhase (p : Phase) :
    ((s.setPhase j p).jobs k).phase = if k = j then p else (s.jobs k).phase := by
  simp [State.setPhase, apply_ite OrderedJob.phase]

/-- A change of phase leaves the rest of every job. -/
theorem setPhase_frame {α : Type*} (g : OrderedJob → α) (p : Phase)
    (hg : ∀ job : OrderedJob, g { job with phase := p } = g job) :
    g ((s.setPhase j p).jobs k) = g (s.jobs k) := by
  rw [State.setPhase, jobs_modify]
  split
  · rename_i hk
    rw [hk, hg]
  · rfl

@[simp] theorem id_setPhase (p : Phase) : ((s.setPhase j p).jobs k).id = (s.jobs k).id :=
  setPhase_frame s j k OrderedJob.id p fun _ => rfl

@[simp] theorem inputBytes_setPhase (p : Phase) :
    ((s.setPhase j p).jobs k).inputBytes = (s.jobs k).inputBytes :=
  setPhase_frame s j k OrderedJob.inputBytes p fun _ => rfl

@[simp] theorem cancelled_setPhase (p : Phase) :
    ((s.setPhase j p).jobs k).cancelled = (s.jobs k).cancelled :=
  setPhase_frame s j k OrderedJob.cancelled p fun _ => rfl

@[simp] theorem aborted_setPhase (p : Phase) :
    ((s.setPhase j p).jobs k).aborted = (s.jobs k).aborted :=
  setPhase_frame s j k OrderedJob.aborted p fun _ => rfl

@[simp] theorem cancelling_setPhase (p : Phase) :
    ((s.setPhase j p).jobs k).cancelling = (s.jobs k).cancelling :=
  setPhase_frame s j k OrderedJob.cancelling p fun _ => rfl

@[simp] theorem cancelDone_setPhase (p : Phase) :
    ((s.setPhase j p).jobs k).cancelDone = (s.jobs k).cancelDone :=
  setPhase_frame s j k OrderedJob.cancelDone p fun _ => rfl

end

end NemesisBot.WorkPool
