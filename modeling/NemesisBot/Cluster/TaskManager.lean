import NemesisBot.Lib.Json
import NemesisBot.Lib.Runs
import NemesisBot.Cluster.TaskStore

/-! The task manager on the store in memory. Each use of the store is one step, so the calls
of several threads interleave between the conditional update and what follows from it. -/
namespace NemesisBot.TaskManager
open Strings Runs

abbrev Store := InMemoryTaskStore Json

/-- What a cleanup still has to go through, and its limit for tasks that are not done. -/
structure Sweep where
  pendingLimit : Int
  rest : List TaskStatus

/-- Where a call stands between two uses of the store. -/
inductive Pc where
  /-- `settle_task` after the update went through -/
  | settledFetch (id : Text) (status : TaskStatus)
  | settledFire (id : Text) (status : TaskStatus) (task : Task Json)
  /-- `settle_task` after the update was refused -/
  | refusedFetch (id : Text) (status : TaskStatus)
  /-- `list_by_status`, which meets the entries one after another -/
  | listing (sweep : Sweep) (status : TaskStatus) (met : List (Task Json))
  | sweeping (sweep : Sweep) (status : TaskStatus) (tasks : List (Task Json))
  /-- `cleanup_completed` after it timed a task out -/
  | timedOutFetch (sweep : Sweep) (status : TaskStatus) (tasks : List (Task Json)) (id : Text)
  | timedOutFire (sweep : Sweep) (status : TaskStatus) (tasks : List (Task Json)) (id : Text)
      (task : Task Json)

/-- What the callers and the completion callback see. -/
inductive Event where
  | completed (task : Task Json)
  | assigned (id : Text) (ok : Bool)
  | settled (id : Text) (status : TaskStatus) (ok : Bool)
  | deleted (id : Text) (ok : Bool)

structure State where
  store : Store
  threads : List Pc
  log : List Event

def start (store : Store) : State := ⟨store, [], []⟩

def State.emit (s : State) (e : Event) : State := { s with log := e :: s.log }

def State.spawn (s : State) (pc : Pc) : State := { s with threads := pc :: s.threads }

def State.write (s : State) (store : Store) : State := { s with store := store }

def assignTask (s : State) (id now : Text) : State :=
  match s.store.updateResultIfStatus id [.pending] .running none now with
  | (store, .ok true) => (s.write store).emit (.assigned id true)
  | (_, _) => s.emit (.assigned id false)

def settleTask (s : State) (id : Text) (status : TaskStatus) (result : Option Json) (now : Text) :
    State :=
  match s.store.updateResultIfStatus id [.pending, .running] status result now with
  | (_, .error _) => s.emit (.settled id status false)
  | (store, .ok true) => (s.write store).spawn (.settledFetch id status)
  | (_, .ok false) => s.spawn (.refusedFetch id status)

def completeTask (s : State) (id : Text) (result : Json) (now : Text) : State :=
  settleTask s id .completed (some result) now

def errorResult (message : Text) : Json := .object [("error".toList, .str message)]

def failTask (s : State) (id error now : Text) : State :=
  settleTask s id .failed (some (errorResult error)) now

def completeCallback (s : State) (id status response errMsg now : Text) : State :=
  if status = "error".toList then
    failTask s id (if errMsg = [] then "unknown error".toList else errMsg) now
  else completeTask s id (if response = [] then .null else .str response) now

def deleteTask (s : State) (id : Text) : State :=
  match s.store.delete id with
  | (store, .ok ()) => (s.write store).emit (.deleted id true)
  | (_, .error _) => s.emit (.deleted id false)

def twoHours : Int := 2 * 60 * 60 * 1000000000

def statusDebug : TaskStatus → Text
  | .pending => "Pending".toList
  | .running => "Running".toList
  | .completed => "Completed".toList
  | .failed => "Failed".toList
  | .cancelled => "Cancelled".toList

def timeoutMessage (status : TaskStatus) (limit : Int) : Text :=
  "task timed out in ".toList ++ statusDebug status ++
    " state: no response received within ".toList ++
    (toString (limit.tdiv 1000000000)).toList ++ " seconds".toList

/-- The time that `cleanup_completed` measures a task's age from. -/
def stampOf (status : TaskStatus) (t : Task Json) : Option Text :=
  if isTerminalStatus status then t.completedAt else some t.createdAt

def tooOld (clock : Clock) (now limit : Int) (stamp : Option Text) : Bool :=
  (stamp.bind clock.parseFromRfc3339).any fun at' => limit < now - at'

/-- The statuses that one cleanup goes through. -/
def cleanupOrder : List TaskStatus := [.completed, .failed, .cancelled, .pending, .running]

def cleanupCompleted (s : State) (pendingLimit : Int) : State :=
  match cleanupOrder with
  | [] => s
  | status :: rest => s.spawn (.listing ⟨pendingLimit, rest⟩ status [])

/-- One listed task of a cleanup. -/
def sweepTask (clock : Clock) (s : State) (now : Int) (sweep : Sweep) (status : TaskStatus)
    (t : Task Json) (tasks : List (Task Json)) : State :=
  if isTerminalStatus status then
    if tooOld clock now twoHours (stampOf status t) then
      (s.write (s.store.delete t.id).1).spawn (.sweeping sweep status tasks)
    else s.spawn (.sweeping sweep status tasks)
  else if tooOld clock now sweep.pendingLimit (stampOf status t) then
    match s.store.updateResultIfStatus t.id [status] .failed
        (some (errorResult (timeoutMessage status sweep.pendingLimit))) (clock.toRfc3339 now) with
    | (store, .ok true) => (s.write store).spawn (.timedOutFetch sweep status tasks t.id)
    | (_, _) => s.spawn (.sweeping sweep status tasks)
  else s.spawn (.sweeping sweep status tasks)

/-- Lets a call go on that is taken out of the threads of `s`. -/
def resume (clock : Clock) (s : State) (now : Int) : Pc → State
  | .settledFetch id status => match s.store.get id with
    | .ok task => s.spawn (.settledFire id status task)
    | .error _ => s.emit (.settled id status true)
  | .settledFire id status task => (s.emit (.completed task)).emit (.settled id status true)
  | .refusedFetch id status => match s.store.get id with
    | .ok t => s.emit (.settled id status (t.status = status))
    | .error _ => s.emit (.settled id status false)
  | .listing sweep status met => s.spawn (.sweeping sweep status met)
  | .sweeping sweep _ [] => match sweep.rest with
    | [] => s
    | status :: rest => s.spawn (.listing { sweep with rest := rest } status [])
  | .sweeping sweep status (t :: tasks) => sweepTask clock s now sweep status t tasks
  | .timedOutFetch sweep status tasks id => match s.store.get id with
    | .ok task => s.spawn (.timedOutFire sweep status tasks id task)
    | .error _ => s.spawn (.sweeping sweep status tasks)
  | .timedOutFire sweep status tasks _ task =>
    (s.emit (.completed task)).spawn (.sweeping sweep status tasks)

/-- A listing meets the entry of `id`, if it is there with the status. -/
def meet (s : State) (id : Text) : Pc → State
  | .listing sweep status met => match s.store.find id with
    | some t => s.spawn (.listing sweep status (if t.status = status then met ++ [t] else met))
    | none => s.spawn (.listing sweep status met)
  | pc => s.spawn pc

inductive Act where
  | assignTask (id : Text) (now : Int)
  | completeTask (id : Text) (result : Json) (now : Int)
  | failTask (id error : Text) (now : Int)
  | completeCallback (id status response errMsg : Text) (now : Int)
  | deleteTask (id : Text)
  | cleanupCompleted (pendingLimit : Int)
  | meet (thread : Nat) (id : Text)
  | resume (thread : Nat) (now : Int)

/-- Takes a call out of the threads. -/
def State.take (s : State) (thread : Nat) : Option (Pc × State) :=
  s.threads[thread]?.map fun pc => (pc, { s with threads := s.threads.eraseIdx thread })

def step (clock : Clock) (s : State) : Act → Option State
  | .assignTask id now => some (assignTask s id (clock.toRfc3339 now))
  | .completeTask id result now => some (completeTask s id result (clock.toRfc3339 now))
  | .failTask id error now => some (failTask s id error (clock.toRfc3339 now))
  | .completeCallback id status response errMsg now =>
    some (completeCallback s id status response errMsg (clock.toRfc3339 now))
  | .deleteTask id => some (deleteTask s id)
  | .cleanupCompleted pendingLimit => some (cleanupCompleted s pendingLimit)
  | .meet thread id => (s.take thread).map fun p => meet p.2 id p.1
  | .resume thread now => (s.take thread).map fun p => resume clock p.2 now p.1

/-! What the log and the threads hold about one task. -/

/-- The callback ran for the task. -/
def Event.fires (id : Text) : Event → Bool
  | .completed task => task.id = id
  | _ => false

def Event.assigns (id : Text) : Event → Bool
  | .assigned i ok => ok && i = id
  | _ => false

/-- A settle call answered that the task has the status. -/
def Event.promises (id : Text) (status : TaskStatus) : Event → Prop
  | .settled i st ok => ok = true ∧ i = id ∧ st = status
  | _ => False

/-- The call is going to run the callback for the task. -/
def Pc.fires (id : Text) : Pc → Bool
  | .settledFetch i _ => i = id
  | .settledFire _ _ task => task.id = id
  | .timedOutFetch _ _ _ i => i = id
  | .timedOutFire _ _ _ _ task => task.id = id
  | _ => false

def Pc.promises (id : Text) (status : TaskStatus) : Pc → Prop
  | .settledFetch i st => i = id ∧ st = status
  | .settledFire i st _ => i = id ∧ st = status
  | _ => False

/-- The status that a settle call asks for. -/
def Pc.target : Pc → Option TaskStatus
  | .settledFetch _ st => some st
  | .settledFire _ st _ => some st
  | .refusedFetch _ st => some st
  | _ => none

/-- How often the callback ran or is going to run for the task. -/
def fires (id : Text) (s : State) : Nat :=
  s.log.countP (Event.fires id) + s.threads.countP (Pc.fires id)

def assigns (id : Text) (s : State) : Nat := s.log.countP (Event.assigns id)

def Promises (id : Text) (status : TaskStatus) (s : State) : Prop :=
  (∃ e ∈ s.log, e.promises id status) ∨ ∃ pc ∈ s.threads, pc.promises id status

section Bookkeeping
variable (id : Text) (status : TaskStatus) (s : State) (e : Event) (pc : Pc) (store : Store)

@[simp]
theorem fires_emit : fires id (s.emit e) = fires id s + if e.fires id then 1 else 0 := by
  simp only [fires, State.emit, List.countP_cons]
  omega

@[simp]
theorem fires_spawn : fires id (s.spawn pc) = fires id s + if pc.fires id then 1 else 0 := by
  simp only [fires, State.spawn, List.countP_cons]
  omega

@[simp]
theorem fires_write : fires id (s.write store) = fires id s := rfl

@[simp]
theorem assigns_emit :
    assigns id (s.emit e) = assigns id s + if e.assigns id then 1 else 0 :=
  List.countP_cons

@[simp]
theorem assigns_spawn : assigns id (s.spawn pc) = assigns id s := rfl

@[simp]
theorem assigns_write : assigns id (s.write store) = assigns id s := rfl

@[simp]
theorem promises_emit :
    Promises id status (s.emit e) ↔ e.promises id status ∨ Promises id status s := by
  simp [Promises, State.emit, or_assoc]

@[simp]
theorem promises_spawn :
    Promises id status (s.spawn pc) ↔ pc.promises id status ∨ Promises id status s := by
  simp only [Promises, State.spawn, List.mem_cons, exists_eq_or_imp]
  exact or_left_comm

@[simp]
theorem promises_write : Promises id status (s.write store) ↔ Promises id status s := Iff.rfl

@[simp]
theorem store_emit : (s.emit e).store = s.store := rfl

@[simp]
theorem store_spawn : (s.spawn pc).store = s.store := rfl

@[simp]
theorem store_write : (s.write store).store = store := rfl

end Bookkeeping

/-- What taking a call out of the threads leaves. -/
structure Taken (s : State) (pc : Pc) (u : State) : Prop where
  threads : s.threads.Perm (pc :: u.threads)
  store : u.store = s.store
  log : u.log = s.log

theorem taken_of_take {s : State} {thread : Nat} {p : Pc × State} (h : s.take thread = some p) :
    Taken s p.1 p.2 := by
  obtain ⟨pc, hpc, rfl⟩ := Option.map_eq_some_iff.mp h
  obtain ⟨hlt, rfl⟩ := List.getElem?_eq_some_iff.mp hpc
  exact ⟨(List.getElem_cons_eraseIdx_perm hlt).symm, rfl, rfl⟩

theorem Taken.fires {s u : State} {pc : Pc} (h : Taken s pc u) (id : Text) :
    fires id s = fires id u + if pc.fires id then 1 else 0 := by
  simp only [TaskManager.fires, h.threads.countP_eq, h.log, List.countP_cons]
  omega

theorem Taken.assigns {s u : State} {pc : Pc} (h : Taken s pc u) (id : Text) :
    assigns id s = assigns id u := by
  simp only [TaskManager.assigns, h.log]

theorem Taken.promises {s u : State} {pc : Pc} (h : Taken s pc u) (id : Text)
    (status : TaskStatus) :
    Promises id status s ↔ pc.promises id status ∨ Promises id status u := by
  have hmem (q : Pc) : q ∈ s.threads ↔ q = pc ∨ q ∈ u.threads := by
    rw [h.threads.mem_iff, List.mem_cons]
  simp only [Promises, hmem, h.log, exists_eq_or_imp]
  exact or_left_comm

/-- What one step does to the task of `id` and to the answers about it. -/
inductive Effect (id : Text) (s u : State) : Prop where
  | kept (store : u.store.find id = s.store.find id ∨ u.store.find id = none)
      (fires : fires id u ≤ fires id s) (assigns : assigns id u = assigns id s)
      (promises : ∀ status, Promises id status u → Promises id status s ∨
        .refusedFetch id status ∈ s.threads ∧
          ∃ t, s.store.find id = some t ∧ t.status = status)
  | assigned (t : Task Json) (now : Text) (before : s.store.find id = some t)
      (pending : t.status = .pending)
      (after : u.store.find id = some (t.withResult .running none now))
      (fires : fires id u = fires id s) (assigns : assigns id u = assigns id s + 1)
      (promises : ∀ status, Promises id status u → Promises id status s)
  | settled (t : Task Json) (target : TaskStatus) (result : Option Json) (now : Text)
      (before : s.store.find id = some t) (running : isTerminalStatus t.status = false)
      (terminal : isTerminalStatus target = true)
      (after : u.store.find id = some (t.withResult target result now))
      (fires : fires id u = fires id s + 1) (assigns : assigns id u = assigns id s)
      (promises : ∀ status, Promises id status u → Promises id status s ∨ status = target)

/-- A step that writes nothing and answers nothing new. -/
theorem Effect.quiet {id : Text} {s u : State} (store : u.store = s.store)
    (fires : fires id u ≤ fires id s) (assigns : assigns id u = assigns id s)
    (promises : ∀ status, Promises id status u → Promises id status s) : Effect id s u :=
  .kept (.inl (by rw [store])) fires assigns fun status h => .inl (promises status h)

/-- A step about another task. -/
theorem Effect.of_other {id : Text} {s u : State} (store : u.store.find id = s.store.find id)
    (fires : fires id u = fires id s) (assigns : assigns id u = assigns id s)
    (promises : ∀ status, Promises id status u → Promises id status s) : Effect id s u :=
  .kept (.inl store) fires.le assigns fun status h => .inl (promises status h)

theorem effect_assignTask (id : Text) (s : State) (i now : Text) :
    Effect id s (assignTask s i now) := by
  simp only [assignTask]
  split
  · rename_i store h
    obtain ⟨t, ht, hst, hfind⟩ := InMemoryTaskStore.updateResultIfStatus_ok h
    by_cases hi : id = i
    · subst hi
      exact .assigned t now ht (by simpa using hst) (by simp [hfind]) (by simp [Event.fires])
        (by simp [Event.assigns]) (by simp [Event.promises])
    · have hne : ¬ i = id := fun h => hi h.symm
      exact .of_other (by simp [hfind, hi]) (by simp [Event.fires])
        (by simp [Event.assigns, hne]) (by simp [Event.promises])
  · exact .quiet rfl (by simp [Event.fires]) (by simp [Event.assigns]) (by simp [Event.promises])

theorem effect_settleTask (id : Text) (s : State) (i : Text) {target : TaskStatus}
    (result : Option Json) (now : Text) (hterm : isTerminalStatus target = true) :
    Effect id s (settleTask s i target result now) := by
  simp only [settleTask]
  split
  · exact .quiet rfl (by simp [Event.fires]) (by simp [Event.assigns]) (by simp [Event.promises])
  · rename_i store h
    obtain ⟨t, ht, hst, hfind⟩ := InMemoryTaskStore.updateResultIfStatus_ok h
    by_cases hi : id = i
    · subst hi
      have hopen : isTerminalStatus t.status = false := by
        rcases List.mem_pair.mp hst with h | h <;> rw [h] <;> rfl
      refine .settled t target result now ht hopen hterm (by simp [hfind]) (by simp [Pc.fires])
        (by simp) fun status hp => ?_
      simp only [promises_spawn, promises_write, Pc.promises, true_and] at hp
      exact hp.symm.imp_right Eq.symm
    · have hne : ¬ i = id := fun h => hi h.symm
      exact .of_other (by simp [hfind, hi]) (by simp [Pc.fires, hne]) (by simp)
        (by simp [Pc.promises, hne])
  · exact .quiet rfl (by simp [Pc.fires]) (by simp) (by simp [Pc.promises])

theorem effect_deleteTask (id : Text) (s : State) (i : Text) : Effect id s (deleteTask s i) := by
  have hfind := InMemoryTaskStore.find_delete_fst s.store i id
  simp only [deleteTask]
  split
  · rename_i store h
    rw [h] at hfind
    refine .kept ?_ (by simp [Event.fires]) (by simp [Event.assigns])
      (by simp +contextual [Event.promises])
    simp only [store_emit, store_write, hfind]
    split <;> simp
  · exact .quiet rfl (by simp [Event.fires]) (by simp [Event.assigns]) (by simp [Event.promises])

/-- A call goes on from where it was taken out of the threads. -/
theorem Effect.of_taken {id : Text} {s m u : State} {pc : Pc} (h : Taken s pc m)
    (he : Effect id m u) (hf : pc.fires id = false)
    (hp : ∀ status, ¬ pc.promises id status) : Effect id s u := by
  have hfires : TaskManager.fires id s = TaskManager.fires id m := by simp [h.fires id, hf]
  have hpromises (status : TaskStatus) : Promises id status s ↔ Promises id status m := by
    simp [h.promises id status, hp status]
  have hmem (q : Pc) (hq : q ∈ m.threads) : q ∈ s.threads :=
    h.threads.mem_iff.mpr (List.mem_cons_of_mem pc hq)
  cases he with
  | kept store fires assigns promises =>
    refine .kept (h.store ▸ store) (hfires ▸ fires) (h.assigns id ▸ assigns) fun status hu => ?_
    rcases promises status hu with hm | ⟨hr, ht⟩
    · exact .inl ((hpromises status).mpr hm)
    · exact .inr ⟨hmem _ hr, h.store ▸ ht⟩
  | assigned t now before pending after fires assigns promises =>
    exact .assigned t now (h.store ▸ before) pending after (hfires ▸ fires)
      (h.assigns id ▸ assigns) fun status hu => (hpromises status).mpr (promises status hu)
  | settled t target result now before running terminal after fires assigns promises =>
    exact .settled t target result now (h.store ▸ before) running terminal after
      (hfires ▸ fires) (h.assigns id ▸ assigns)
      fun status hu => (promises status hu).imp_left (hpromises status).mpr

theorem effect_sweepTask (id : Text) (clock : Clock) (s : State) (now : Int) (sweep : Sweep)
    (status : TaskStatus) (t : Task Json) (tasks : List (Task Json)) :
    Effect id s (sweepTask clock s now sweep status t tasks) := by
  have hskip : Effect id s (s.spawn (.sweeping sweep status tasks)) :=
    .quiet rfl (by simp [Pc.fires]) (by simp) (by simp [Pc.promises])
  unfold sweepTask
  split
  · split
    · refine .kept ?_ (by simp [Pc.fires]) (by simp) (by simp +contextual [Pc.promises])
      simp only [store_spawn, store_write, InMemoryTaskStore.find_delete_fst]
      split <;> simp
    · exact hskip
  rename_i hopen
  split
  · split
    · rename_i store h
      obtain ⟨u, hu, hst, hfind⟩ := InMemoryTaskStore.updateResultIfStatus_ok h
      have hst : u.status = status := by simpa using hst
      by_cases hi : id = t.id
      · subst hi
        exact .settled u .failed _ _ hu (by simpa [hst] using hopen) rfl
          (by rw [store_spawn, store_write, hfind, if_pos rfl]) (by simp [Pc.fires]) (by simp)
          (by simp +contextual [Pc.promises])
      · have hne : ¬ t.id = id := fun h => hi h.symm
        exact .of_other (by simp [hfind, hi]) (by simp [Pc.fires, hne]) (by simp)
          (by simp [Pc.promises])
    · exact hskip
  · exact hskip

theorem get_ok {s : InMemoryTaskStore Json} {id : Text} {t : Task Json} (h : s.get id = .ok t) :
    s.find id = some t := by
  simp only [InMemoryTaskStore.get] at h
  split at h
  · cases h
    assumption
  · cases h

theorem effect_resume (id : Text) (clock : Clock) {s m : State} (now : Int) {pc : Pc}
    (h : Taken s pc m) : Effect id s (resume clock m now pc) := by
  have hf := h.fires id
  have ha := h.assigns id
  have hp := h.promises id
  cases pc with
  | settledFetch i st =>
    simp only [resume]
    split
    · rename_i task hget
      have hid : task.id = i := Table.key_of_find (get_ok hget)
      exact .quiet h.store (by simp [hf, Pc.fires, hid]) (by simp [ha]) (by simp [hp, Pc.promises])
    · exact .quiet h.store (by simp [hf, Event.fires]) (by simp [ha, Event.assigns])
        (by simp [hp, Event.promises, Pc.promises])
  | settledFire i st task =>
    exact .quiet h.store (by simp [resume, hf, Pc.fires, Event.fires])
      (by simp [resume, ha, Event.assigns]) (by simp [resume, hp, Event.promises, Pc.promises])
  | refusedFetch i st =>
    have hmem : Pc.refusedFetch i st ∈ s.threads := h.threads.mem_iff.mpr List.mem_cons_self
    simp only [resume]
    split
    · rename_i t hget
      refine .kept (.inl (by rw [store_emit, h.store])) (by simp [hf, Pc.fires, Event.fires])
        (by simp [ha, Event.assigns]) fun status hu => ?_
      rcases (promises_emit id status m _).mp hu with he | hm
      · simp only [Event.promises, decide_eq_true_eq] at he
        obtain ⟨hst, rfl, rfl⟩ := he
        exact .inr ⟨hmem, t, by rw [← h.store]; exact get_ok hget, hst⟩
      · exact .inl ((hp status).mpr (.inr hm))
    · exact .quiet h.store (by simp [hf, Pc.fires, Event.fires]) (by simp [ha, Event.assigns])
        (by simp +contextual [hp, Event.promises])
  | listing sweep status met =>
    exact .quiet h.store (by simp [resume, hf, Pc.fires]) (by simp [resume, ha])
      (by simp [resume, hp, Pc.promises])
  | sweeping sweep status tasks =>
    refine .of_taken h ?_ rfl (by simp [Pc.promises])
    cases tasks with
    | nil =>
      simp only [resume]
      split
      · exact .quiet rfl le_rfl rfl fun _ h => h
      · exact .quiet rfl (by simp [Pc.fires]) (by simp) (by simp [Pc.promises])
    | cons t tasks => exact effect_sweepTask id clock m now sweep status t tasks
  | timedOutFetch sweep status tasks i =>
    simp only [resume]
    split
    · rename_i task hget
      have hid : task.id = i := Table.key_of_find (get_ok hget)
      exact .quiet h.store (by simp [hf, Pc.fires, hid]) (by simp [ha]) (by simp [hp, Pc.promises])
    · exact .quiet h.store (by simp [hf, Pc.fires]) (by simp [ha]) (by simp [hp, Pc.promises])
  | timedOutFire sweep status tasks i task =>
    exact .quiet h.store (by simp [resume, hf, Pc.fires, Event.fires])
      (by simp [resume, ha, Event.assigns]) (by simp [resume, hp, Event.promises, Pc.promises])

theorem effect_meet (id i : Text) {s m : State} {pc : Pc} (h : Taken s pc m) :
    Effect id s (meet m i pc) := by
  have hback : Effect id s (m.spawn pc) :=
    .quiet h.store (by simp [h.fires id]) (by simp [h.assigns id]) (by simp [h.promises id])
  cases pc with
  | listing sweep status met =>
    have hmet (tasks : List (Task Json)) :
        Effect id s (m.spawn (.listing sweep status tasks)) :=
      .quiet h.store (by simp [h.fires id, Pc.fires]) (by simp [h.assigns id])
        (by simp [h.promises id, Pc.promises])
    simp only [meet]
    split
    · exact hmet _
    · exact hmet _
  | _ => exact hback

theorem step_effect (id : Text) {clock : Clock} {s u : State} {act : Act}
    (h : step clock s act = some u) : Effect id s u := by
  cases act with
  | assignTask i now =>
    obtain rfl := Option.some.inj h
    exact effect_assignTask id s i _
  | completeTask i result now =>
    obtain rfl := Option.some.inj h
    exact effect_settleTask id s i _ _ rfl
  | failTask i error now =>
    obtain rfl := Option.some.inj h
    exact effect_settleTask id s i _ _ rfl
  | completeCallback i status response errMsg now =>
    obtain rfl := Option.some.inj h
    unfold completeCallback
    split
    · exact effect_settleTask id s i _ _ rfl
    · exact effect_settleTask id s i _ _ rfl
  | deleteTask i =>
    obtain rfl := Option.some.inj h
    exact effect_deleteTask id s i
  | cleanupCompleted pendingLimit =>
    obtain rfl := Option.some.inj h
    exact .quiet rfl (by simp [cleanupCompleted, cleanupOrder, Pc.fires])
      (by simp [cleanupCompleted, cleanupOrder])
      (by simp [cleanupCompleted, cleanupOrder, Pc.promises])
  | meet thread i =>
    obtain ⟨p, hp, rfl⟩ := Option.map_eq_some_iff.mp h
    exact effect_meet id i (taken_of_take hp)
  | resume thread now =>
    obtain ⟨p, hp, rfl⟩ := Option.map_eq_some_iff.mp h
    exact effect_resume id clock now (taken_of_take hp)

/-- Settle calls ask for terminal statuses only. -/
def TargetsTerminal (s : State) : Prop :=
  ∀ pc ∈ s.threads, ∀ status ∈ pc.target, isTerminalStatus status = true

theorem TargetsTerminal.spawn {s : State} (h : TargetsTerminal s) {pc : Pc}
    (hpc : ∀ status ∈ pc.target, isTerminalStatus status = true) :
    TargetsTerminal (s.spawn pc) := by
  intro q hq
  rcases List.mem_cons.mp hq with rfl | hq
  · exact hpc
  · exact h q hq

theorem Taken.targets {s u : State} {pc : Pc} (h : Taken s pc u) (ht : TargetsTerminal s) :
    TargetsTerminal u ∧ ∀ status ∈ pc.target, isTerminalStatus status = true :=
  ⟨fun q hq => ht q (h.threads.mem_iff.mpr (List.mem_cons_of_mem pc hq)),
    ht pc (h.threads.mem_iff.mpr List.mem_cons_self)⟩

theorem targets_settleTask {s : State} (hs : TargetsTerminal s) (id : Text)
    {target : TaskStatus} (result : Option Json) (now : Text)
    (ht : isTerminalStatus target = true) :
    TargetsTerminal (settleTask s id target result now) := by
  simp only [settleTask]
  split
  · exact hs
  · exact TargetsTerminal.spawn hs (by simp [Pc.target, ht])
  · exact TargetsTerminal.spawn hs (by simp [Pc.target, ht])

theorem targets_resume {clock : Clock} {s : State} {pc : Pc} (now : Int)
    (hs : TargetsTerminal s) (hpc : ∀ status ∈ pc.target, isTerminalStatus status = true) :
    TargetsTerminal (resume clock s now pc) := by
  have hnone {q : Pc} (hq : q.target = none) : TargetsTerminal (s.spawn q) :=
    hs.spawn (by simp [hq])
  cases pc with
  | settledFetch i st =>
    simp only [resume]
    split
    · exact hs.spawn hpc
    · exact hs
  | settledFire i st task => exact hs
  | refusedFetch i st =>
    simp only [resume]
    split
    · exact hs
    · exact hs
  | listing sweep status met => exact hnone rfl
  | sweeping sweep status tasks =>
    cases tasks with
    | nil =>
      simp only [resume]
      split
      · exact hs
      · exact hnone rfl
    | cons t tasks =>
      simp only [resume, sweepTask]
      split
      · split
        · exact TargetsTerminal.spawn hs (by simp [Pc.target])
        · exact hnone rfl
      split
      · split
        · exact TargetsTerminal.spawn hs (by simp [Pc.target])
        · exact hnone rfl
      · exact hnone rfl
  | timedOutFetch sweep status tasks i =>
    simp only [resume]
    split
    · exact hnone rfl
    · exact hnone rfl
  | timedOutFire sweep status tasks i task =>
    exact TargetsTerminal.spawn hs (by simp [Pc.target])

theorem targets_step {clock : Clock} (s : State) (act : Act) (u : State)
    (hs : TargetsTerminal s) (h : step clock s act = some u) : TargetsTerminal u := by
  cases act with
  | assignTask i now =>
    obtain rfl := Option.some.inj h
    simp only [assignTask]
    split
    · exact hs
    · exact hs
  | completeTask i result now =>
    obtain rfl := Option.some.inj h
    exact targets_settleTask hs i _ _ rfl
  | failTask i error now =>
    obtain rfl := Option.some.inj h
    exact targets_settleTask hs i _ _ rfl
  | completeCallback i status response errMsg now =>
    obtain rfl := Option.some.inj h
    unfold completeCallback
    split
    · exact targets_settleTask hs i _ _ rfl
    · exact targets_settleTask hs i _ _ rfl
  | deleteTask i =>
    obtain rfl := Option.some.inj h
    simp only [deleteTask]
    split
    · exact hs
    · exact hs
  | cleanupCompleted pendingLimit =>
    obtain rfl := Option.some.inj h
    exact hs.spawn (by simp [Pc.target])
  | meet thread i =>
    obtain ⟨p, hp, rfl⟩ := Option.map_eq_some_iff.mp h
    obtain ⟨hm, hpc⟩ := (taken_of_take hp).targets hs
    unfold meet
    split
    · split
      · exact hm.spawn (by simp [Pc.target])
      · exact hm.spawn (by simp [Pc.target])
    · exact hm.spawn hpc
  | resume thread now =>
    obtain ⟨p, hp, rfl⟩ := Option.map_eq_some_iff.mp h
    obtain ⟨hm, hpc⟩ := (taken_of_take hp).targets hs
    exact targets_resume now hm hpc

/-- What holds of the task of `id` at every moment. -/
structure Settling (id : Text) (s : State) : Prop where
  targets : TargetsTerminal s
  fires_le : fires id s ≤ 1
  unfired : ∀ t, s.store.find id = some t → isTerminalStatus t.status = false → fires id s = 0
  assigns_le : assigns id s ≤ 1
  unassigned : ∀ t, s.store.find id = some t → t.status = .pending → assigns id s = 0
  stamped : ∀ t, s.store.find id = some t → t.completedAt.isSome = isTerminalStatus t.status
  kept : ∀ status, Promises id status s → isTerminalStatus status = true ∧
    ∀ t, s.store.find id = some t → t.status = status

theorem settling_start {store : Store}
    (h : ∀ t ∈ store.rows, t.completedAt.isSome = isTerminalStatus t.status) (id : Text) :
    Settling id (start store) where
  targets _ hpc := by cases hpc
  fires_le := by simp [fires, start]
  unfired := by simp [fires, start]
  assigns_le := by simp [assigns, start]
  unassigned := by simp [assigns, start]
  stamped t ht := h t (Table.mem_of_find ht)
  kept := by simp [Promises, start]

theorem withResult_stamp {V : Type*} {status : TaskStatus} (result : Option V) (now : Text)
    {t : Task V} (ht : isTerminalStatus t.status = false)
    (h : t.completedAt.isSome = isTerminalStatus t.status) :
    (t.withResult status result now).completedAt.isSome = isTerminalStatus status := by
  simp only [Task.withResult]
  split
  · rename_i hst
    rw [hst]
    rfl
  · rename_i hst
    rw [h, ht]
    simpa using hst

theorem settling_step {id : Text} {clock : Clock} (s : State) (act : Act) (u : State)
    (hs : Settling id s) (h : step clock s act = some u) : Settling id u := by
  have htargets := targets_step s act u hs.targets h
  cases step_effect id h with
  | kept store fires assigns promises =>
    have hfrom (t : Task Json) (ht : u.store.find id = some t) : s.store.find id = some t := by
      rcases store with he | he
      · rw [← he, ht]
      · rw [he] at ht
        cases ht
    refine ⟨htargets, fires.trans hs.fires_le, fun t ht hopen => ?_, assigns ▸ hs.assigns_le,
      fun t ht hp => assigns ▸ hs.unassigned t (hfrom t ht) hp,
      fun t ht => hs.stamped t (hfrom t ht), fun status hp => ?_⟩
    · have hzero := hs.unfired t (hfrom t ht) hopen
      omega
    · rcases promises status hp with hold | ⟨hmem, r, hr, hst⟩
      · obtain ⟨hterm, hall⟩ := hs.kept status hold
        exact ⟨hterm, fun t ht => hall t (hfrom t ht)⟩
      · refine ⟨hs.targets _ hmem status rfl, fun t ht => ?_⟩
        have heq : some t = some r := (hfrom t ht).symm.trans hr
        rw [Option.some.inj heq, hst]
  | assigned t now before pending after fires assigns promises =>
    have hopen : isTerminalStatus t.status = false := by rw [pending]; rfl
    have hfires := hs.unfired t before hopen
    have hassigns := hs.unassigned t before pending
    refine ⟨htargets, by omega, fun r hr _ => by omega, by omega, fun r hr hp => ?_,
      fun r hr => ?_, fun status hp => ?_⟩
    · obtain rfl : _ = r := Option.some.inj (after.symm.trans hr)
      cases hp
    · obtain rfl : _ = r := Option.some.inj (after.symm.trans hr)
      exact withResult_stamp none now hopen (hs.stamped t before)
    · obtain ⟨hterm, hall⟩ := hs.kept status (promises status hp)
      rw [← hall t before, pending] at hterm
      cases hterm
  | settled t target result now before running terminal after fires assigns promises =>
    have hfires := hs.unfired t before running
    refine ⟨htargets, by omega, fun r hr hopen => ?_, assigns ▸ hs.assigns_le,
      fun r hr hp => ?_, fun r hr => ?_, fun status hp => ?_⟩
    · obtain rfl : _ = r := Option.some.inj (after.symm.trans hr)
      rw [Task.withResult_status, terminal] at hopen
      cases hopen
    · obtain rfl : _ = r := Option.some.inj (after.symm.trans hr)
      rw [Task.withResult_status] at hp
      rw [hp] at terminal
      cases terminal
    · obtain rfl : _ = r := Option.some.inj (after.symm.trans hr)
      exact withResult_stamp result now running (hs.stamped t before)
    · rcases promises status hp with hold | rfl
      · obtain ⟨hterm, hall⟩ := hs.kept status hold
        rw [← hall t before, running] at hterm
        cases hterm
      · refine ⟨terminal, fun r hr => ?_⟩
        obtain rfl : _ = r := Option.some.inj (after.symm.trans hr)
        rfl

/-- A settled task stays as it is until it is deleted. -/
theorem settled_stays {clock : Clock} {id : Text} {t : Task Json} (s : State) (act : Act)
    (u : State) (hterm : isTerminalStatus t.status = true)
    (hs : s.store.find id = none ∨ s.store.find id = some t) (h : step clock s act = some u) :
    u.store.find id = none ∨ u.store.find id = some t := by
  cases step_effect id h with
  | kept store =>
    rcases store with he | he
    · rwa [he]
    · exact .inl he
  | assigned r now before pending =>
    rw [before] at hs
    rcases hs with hs | hs
    · cases hs
    · rw [← Option.some.inj hs, pending] at hterm
      cases hterm
  | settled r target result now before running =>
    rw [before] at hs
    rcases hs with hs | hs
    · cases hs
    · rw [← Option.some.inj hs, running] at hterm
      cases hterm

/-- However the calls interleave, a task is assigned once, settled once and announced once. -/
theorem settled_once (clock : Clock) {store : Store}
    (hstore : ∀ t ∈ store.rows, t.completedAt.isSome = isTerminalStatus t.status)
    {acts : List Act} {s : State} (hrun : run (step clock) (start store) acts = some s)
    (id : Text) :
    s.log.countP (Event.fires id) ≤ 1 ∧ s.log.countP (Event.assigns id) ≤ 1 ∧
      (∀ t, s.store.find id = some t → t.completedAt.isSome = isTerminalStatus t.status) ∧
      (∀ status, .settled id status true ∈ s.log →
        ∀ t, s.store.find id = some t → t.status = status) ∧
      ∀ t, s.store.find id = some t → isTerminalStatus t.status = true →
        ∀ later u, run (step clock) s later = some u →
          u.store.find id = none ∨ u.store.find id = some t := by
  have h : Settling id s := run_invariant_always settling_step (settling_start hstore id) hrun
  refine ⟨(Nat.le_add_right _ _).trans h.fires_le, h.assigns_le, h.stamped,
    fun status hmem => (h.kept status (.inl ⟨_, hmem, rfl, rfl, rfl⟩)).2,
    fun t ht hterm later u hu => ?_⟩
  exact run_invariant_always (fun m act n hm hn => settled_stays m act n hterm hm hn)
    (.inr ht) hu

def raceClock : Clock := ⟨fun _ => "2026-11-06T08:00:00+00:00".toList, fun _ => some 0⟩

def raceTask : Task Json :=
  ⟨"t1".toList, .pending, "peer_chat".toList, "b".toList, .null, none, "web".toList, "1".toList,
    "2026-11-06T07:00:00+00:00".toList, none⟩

/-- A result comes in while the task is failed and cleaned up. -/
def raceActs : List Act :=
  [.assignTask "t1".toList 1, .cleanupCompleted 0, .completeTask "t1".toList (.bool true) 2,
    .failTask "t1".toList "late".toList 3, .resume 0 4, .resume 0 5, .meet 1 "t1".toList,
    .resume 1 6, .resume 0 7]

def raced : State :=
  (run (step raceClock) (start (Table.empty.insert raceTask)) raceActs).get (by decide)

theorem settled_once_race :
    raced.log.countP (Event.fires "t1".toList) = 1 ∧
      ∀ t, raced.store.find "t1".toList = some t → isTerminalStatus t.status = true →
        ∀ later u, run (step raceClock) raced later = some u →
          u.store.find "t1".toList = none ∨ u.store.find "t1".toList = some t :=
  ⟨by decide, (settled_once raceClock (by decide) (Option.some_get _).symm _).2.2.2.2⟩

end NemesisBot.TaskManager
