import NemesisBot.Workflow.Composite

/-! A schedule that runs a failing node reports the failure. -/
namespace NemesisBot.Engine
open Strings

/-- The attempt failed: an error, a timeout, a panic, or a result with state Failed. -/
def Outcome.failed : Outcome → Bool
  | .ok result => result.state == .failed
  | .err _ | .panic _ => true

/-- State Failed, and no error text. -/
def Outcome.silent : Outcome → Bool
  | .ok result => result.state == .failed && result.error.isNone
  | _ => false

def lastFailed (e : Executed) : Bool := e.2.getLast?.any Outcome.failed

def lastSilent (e : Executed) : Bool := e.2.getLast?.any Outcome.silent

/-- After a node whose last attempt failed the call returns an error, no later level runs a
node, and no Failed result is merged. -/
def Honest (run : ScheduleRun) : Prop :=
  ∀ before level after, run.trace = before ++ level :: after →
    (∃ e ∈ level.executed, lastFailed e = true) →
    (∃ message, run.result = .error message) ∧ (∀ later ∈ after, later.executed = []) ∧
      ∀ m ∈ level.merged, m.2 ≠ .failed

/-- A branch of a parallel node that leaves an error text. -/
def Outcome.reports : Outcome → Bool
  | .ok result => (result.state == .failed && result.error.isSome) || result.state == .waiting ||
      result.state == .cancelled
  | .err _ | .panic _ => true

/-- A failed child makes the parallel node fail. -/
def ParallelHonest (host : Host) (executors : NodeExecutorRegistry) (node : NodeDef)
    (context : Fields) : Prop :=
  (∃ o ∈ branchOutcomes host executors node context, o.2.failedResult = true) →
    (parallelExecute host executors node context).state = .failed

/-- A failed child makes the loop return, with state Failed. -/
def LoopHonest (ends : Option Outcome × List Outcome) : Prop :=
  (∃ o ∈ ends.2, o.failedResult = true) →
    ∃ result, ends.1 = some (.ok result) ∧ result.state = .failed

/-! One task. -/

theorem joinTask_concat (init : List Outcome) (last : Outcome) :
    joinTask (init ++ [last]) = match last with
      | .panic message => .panicked message
      | .ok result =>
        .returned (some result) (if result.state = .failed then result.error else none)
      | .err message => .returned (init.foldl Last.after ⟨none, none⟩).result (some message) := by
  rw [joinTask, List.getLast?_concat, List.foldl_append]
  cases last with
  | ok result => rfl
  | err message => rfl
  | panic message => rfl

/-- What collecting a task did to the first error and to the merged results. -/
structure Collected (c c' : Collection) (e : Executed) : Prop where
  kept : c.firstErr.isSome → c'.firstErr.isSome
  reported : lastFailed e = true → lastSilent e = false → c'.firstErr.isSome
  merged : (∃ m ∈ c'.merged, m.2 = .failed) ↔
    (∃ m ∈ c.merged, m.2 = .failed) ∨ lastSilent e = true

theorem collected_fail {c : Collection} {e : Executed} (message : Text)
    (h : lastSilent e = false) : Collected c (c.fail message) e := by
  have herr : (c.fail message).firstErr.isSome := by
    cases hc : c.firstErr <;> simp [Collection.fail, hc]
  exact ⟨fun _ => herr, fun _ _ => herr, by simp [Collection.fail, h]⟩

theorem collected_add (host : Host) (c : Collection) (nodeId : Text) (ended : List Outcome) :
    Collected c (c.add host nodeId (joinTask ended)) (nodeId, ended) := by
  cases List.eq_nil_or_concat' ended with
  | inl he =>
    subst he
    exact collected_fail _ rfl
  | inr he =>
    obtain ⟨init, last, rfl⟩ := he
    have hsilent : lastSilent (nodeId, init ++ [last]) = last.silent := by
      simp [lastSilent]
    have hfailed : lastFailed (nodeId, init ++ [last]) = last.failed := by
      simp [lastFailed]
    rw [joinTask_concat]
    cases last with
    | err message =>
      cases hr : (init.foldl Last.after ⟨none, none⟩).result with
      | none => exact collected_fail _ hsilent
      | some result => exact collected_fail _ hsilent
    | panic message => exact collected_fail _ hsilent
    | ok result =>
      by_cases hs : result.state = .failed
      · cases herr : result.error with
        | none =>
          have hyes : (Outcome.ok result).silent = true := by simp [Outcome.silent, hs, herr]
          refine ⟨?_, ?_, ?_⟩
          · simp [Collection.add, hs, herr]
          · simp [hsilent, hyes]
          · simp [Collection.add, hs, herr, hsilent, hyes]
        | some e =>
          simp only [hs, herr, if_true]
          exact collected_fail _ (by simp [hsilent, Outcome.silent, herr])
      · have hno : (Outcome.ok result).silent = false := by simp [Outcome.silent, hs]
        have hok : (Outcome.ok result).failed = false := by simp [Outcome.failed, hs]
        refine ⟨?_, ?_, ?_⟩
        · simp [Collection.add, hs]
        · simp [hfailed, hok]
        · simp [Collection.add, hs, hsilent, hno]

/-! One level. -/

/-- A failed task has left an error or was silent; a Failed result is merged for silent ones. -/
structure Collection.Sound (c : Collection) : Prop where
  reported : ∀ e ∈ c.collected, lastFailed e = true → lastSilent e = false → c.firstErr.isSome
  merged : (∃ m ∈ c.merged, m.2 = .failed) ↔ ∃ e ∈ c.collected, lastSilent e = true

theorem sound_collect {host : Host} {c : Collection} (h : c.Sound) (nodeId : Text)
    (ended : List Outcome) : (c.collect host nodeId ended).Sound := by
  have hadd := collected_add host c nodeId ended
  constructor
  · intro e he hf hs
    cases List.mem_append.mp he with
    | inl he => exact hadd.kept (h.reported e he hf hs)
    | inr he =>
      obtain rfl := List.mem_singleton.mp he
      exact hadd.reported hf hs
  · have hcollected : (∃ e ∈ c.collected ++ [(nodeId, ended)], lastSilent e = true) ↔
        (∃ e ∈ c.collected, lastSilent e = true) ∨ lastSilent (nodeId, ended) = true := by
      simp [or_and_right, exists_or]
    exact hadd.merged.trans ((or_congr_left h.merged).trans hcollected.symm)

theorem sound_collectTasks {host : Host} {choices : Choices} {context : Fields}
    {ctx : WorkflowContext} {tasks : List Task} {c : Collection} (h : c.Sound) :
    (collectTasks host choices context ctx tasks c).Sound := by
  induction tasks generalizing c with
  | nil => exact h
  | cons task tasks ih => exact ih (sound_collect h _ _)

theorem runLevel_spec (host : Host) (sched : Schedule) (choices : Choices)
    (ctx : WorkflowContext) (level : List Text) :
    let r := runLevel host sched choices ctx level
    ((∃ e ∈ r.trace.executed, lastFailed e = true) →
      (∀ e ∈ r.trace.collected, lastSilent e = false) →
      ∃ message, r.ending = .stop (.error message)) ∧
    ((∃ m ∈ r.trace.merged, m.2 = .failed) ↔ ∃ e ∈ r.trace.collected, lastSilent e = true) := by
  have hstart : Collection.Sound ⟨ctx, none, [], []⟩ := ⟨by simp, by simp⟩
  simp only [runLevel]
  split
  · simp [LevelTrace.executed]
  · split
    · simp [LevelTrace.executed]
    · split
      · simp
      · rename_i tasks _
        have hc : (collectTasks host choices (buildExecutorContext choices.contextOrder ctx) ctx
          (choices.finishing.arrange tasks) ⟨ctx, none, [], []⟩).Sound := sound_collectTasks hstart
        refine ⟨?_, hc.merged⟩
        intro hf hs
        obtain ⟨e, he, hfailed⟩ := hf
        have herr := hc.reported e he hfailed (hs e he)
        obtain ⟨message, hm⟩ := Option.isSome_iff_exists.mp herr
        exact ⟨message, by rw [hm]⟩

/-! All levels. -/

/-- No collected task ended with a silent failure. -/
def NoSilentFailure (run : ScheduleRun) : Prop :=
  ∀ level ∈ run.trace, ∀ e ∈ level.collected, lastSilent e = false

theorem runLevels_merged (host : Host) (sched : Schedule) (choices : Nat → Choices) (k : Nat)
    (ctx : WorkflowContext) (levels : List (List Text)) :
    ∀ level ∈ (runLevels host sched choices k ctx levels).trace,
      (∃ m ∈ level.merged, m.2 = .failed) ↔ ∃ e ∈ level.collected, lastSilent e = true := by
  induction levels generalizing k ctx with
  | nil => simp [runLevels]
  | cons level rest ih =>
    have hlevel := (runLevel_spec host sched (choices k) ctx level).2
    rw [runLevels]
    split
    · simpa using hlevel
    · intro l hl
      cases List.mem_cons.mp hl with
      | inl hl => exact hl ▸ hlevel
      | inr hl => exact ih _ _ l hl

theorem runLevels_honest (host : Host) (sched : Schedule) (choices : Nat → Choices) (k : Nat)
    (ctx : WorkflowContext) (levels : List (List Text))
    (hs : NoSilentFailure (runLevels host sched choices k ctx levels)) :
    ∀ before level after,
      (runLevels host sched choices k ctx levels).trace = before ++ level :: after →
      (∃ e ∈ level.executed, lastFailed e = true) →
      (∃ message, (runLevels host sched choices k ctx levels).result = .error message) ∧
        after = [] := by
  induction levels generalizing k ctx with
  | nil => simp [runLevels]
  | cons first rest ih =>
    have hfirst := (runLevel_spec host sched (choices k) ctx first).1
    rw [runLevels] at hs ⊢
    split at hs
    · rename_i result hr
      intro before level after he hf
      cases before with
      | nil =>
        obtain ⟨rfl, rfl⟩ := List.cons.inj he
        obtain ⟨message, hm⟩ := hfirst hf (hs _ (by simp))
        rw [hr] at hm
        cases hm
        exact ⟨⟨message, rfl⟩, rfl⟩
      | cons b before => simp at he
    · rename_i hr
      intro before level after he hf
      cases before with
      | nil =>
        obtain ⟨rfl, rfl⟩ := List.cons.inj he
        obtain ⟨message, hm⟩ := hfirst hf (hs _ (by simp))
        rw [hr] at hm
        cases hm
      | cons b before =>
        exact ih _ _ (fun l hl => hs l (List.mem_cons_of_mem _ hl)) before level after
          (List.cons.inj he).2 hf

theorem scheduleInner_honest_iff (host : Host) (sched : Schedule) (order : Arrangement)
    (choices : Nat → Choices) (ctx : WorkflowContext) :
    Honest (scheduleInner host sched order choices ctx) ↔
      NoSilentFailure (scheduleInner host sched order choices ctx) := by
  rw [scheduleInner]
  split
  · simp [Honest, NoSilentFailure]
  · rename_i levels _
    have hmerged := runLevels_merged host sched choices 0 ctx levels
    constructor
    · intro h level hl e he
      cases hs : lastSilent e with
      | false => rfl
      | true =>
        have hf : lastFailed e = true := by
          obtain ⟨o, ho, hsilent⟩ := (Option.any_eq_true _ _).mp hs
          refine (Option.any_eq_true _ _).mpr ⟨o, ho, ?_⟩
          cases o with
          | ok result =>
            simp only [Outcome.silent, Bool.and_eq_true] at hsilent
            exact hsilent.1
          | err message => rfl
          | panic message => rfl
        obtain ⟨before, after, hsplit⟩ := List.append_of_mem hl
        obtain ⟨m, hm, hstate⟩ := (hmerged level hl).mpr ⟨e, he, hs⟩
        have hnot := (h before level after hsplit
          ⟨e, List.mem_append_right _ he, hf⟩).2.2 m hm
        exact absurd hstate hnot
    · intro hs before level after hsplit hf
      obtain ⟨herr, rfl⟩ := runLevels_honest host sched choices 0 ctx levels hs _ _ _ hsplit hf
      have hl : level ∈ (runLevels host sched choices 0 ctx levels).trace := by
        rw [hsplit]
        simp
      refine ⟨herr, by simp, fun m hm hstate => ?_⟩
      obtain ⟨e, he, hsilent⟩ := (hmerged level hl).mp ⟨m, hm, hstate⟩
      rw [hs level hl e he] at hsilent
      cases hsilent

/-! The composite executors. -/

theorem stateFor_failed_iff (error : Option Text) : stateFor error = .failed ↔ error.isSome := by
  cases error <;> simp [stateFor]

theorem branchError_isSome (key : Text) (o : Outcome) : (branchError key o).isSome = o.reports := by
  cases o with
  | err e => rfl
  | panic message => rfl
  | ok result =>
    cases hs : result.state with
    | failed => cases he : result.error <;> simp [branchError, Outcome.reports, hs, he]
    | _ => simp [branchError, Outcome.reports, hs]

theorem parallelExecute_failed_iff (host : Host) (executors : NodeExecutorRegistry)
    (node : NodeDef) (context : Fields) :
    (parallelExecute host executors node context).state = .failed ↔
      ∃ o ∈ branchOutcomes host executors node context, o.2.reports = true := by
  rw [parallelExecute]
  split
  · rename_i hnil
    simp [nodeResult, hnil]
  · rw [nodeResult, stateFor_failed_iff, List.findSome?_isSome_iff]
    simp only [branchError_isSome]

theorem loopExecute_honest (host : Host) (executors : NodeExecutorRegistry)
    (order : Nat → Arrangement) (fuel : Nat) (node : NodeDef) (context : Fields) :
    LoopHonest (loopExecute host executors order fuel node context) := by
  intro h
  rw [loopExecute] at h ⊢
  split at h
  · simp at h
  · rename_i hchildren
    rw [if_neg hchildren]
    dsimp only at h ⊢
    split at h
    · simp at h
    · rename_i items _
      obtain ⟨o, ho, hfailed⟩ := h
      have hstart : LoopState.Clean ⟨context, .null, []⟩ := fun _ h => (List.not_mem_nil h).elim
      cases iterate_clean hstart order fuel _ (.new context) _ 0 with
      | inl herr =>
        obtain ⟨error, herr⟩ := herr
        exact ⟨_, by rw [LoopRun.outcome, herr], rfl⟩
      | inr hclean =>
        rw [hclean o ho] at hfailed
        cases hfailed

/-- Failures are reported exactly when none is silent: by a schedule when no collected task
ends with a Failed result without an error text, by a parallel node when with a failed child
some child leaves an error text, and by a loop always. -/
theorem honest_failure (host : Host) :
    (∀ (sched : Schedule) (order : Arrangement) (choices : Nat → Choices) (ctx : WorkflowContext),
      Honest (scheduleInner host sched order choices ctx) ↔
        NoSilentFailure (scheduleInner host sched order choices ctx)) ∧
    (∀ (executors : NodeExecutorRegistry) (node : NodeDef) (context : Fields),
      ParallelHonest host executors node context ↔
        ((∃ o ∈ branchOutcomes host executors node context, o.2.failedResult = true) →
          ∃ o ∈ branchOutcomes host executors node context, o.2.reports = true)) ∧
    (∀ (executors : NodeExecutorRegistry) (order : Nat → Arrangement) (fuel : Nat)
      (node : NodeDef) (context : Fields),
      LoopHonest (loopExecute host executors order fuel node context)) := by
  refine ⟨fun sched order choices ctx => scheduleInner_honest_iff host sched order choices ctx,
    fun executors node context => ?_,
    fun executors order fuel node context =>
      loopExecute_honest host executors order fuel node context⟩
  rw [ParallelHonest, parallelExecute_failed_iff]

/-- Every node ends Failed without an error text. -/
def silentExecutors : NodeExecutorRegistry := fun _ => some fun node _ _ _ =>
  .ok (nodeResult node .null none .failed)

/-- A node that fails silently is merged, and the schedule and the parallel node complete. -/
theorem silent_failure_completes :
    (¬ ∀ (host : Host) (sched : Schedule) (order : Arrangement) (choices : Nat → Choices)
      (ctx : WorkflowContext), Honest (scheduleInner host sched order choices ctx)) ∧
    ¬ ∀ (host : Host) (executors : NodeExecutorRegistry) (node : NodeDef) (context : Fields),
      ParallelHonest host executors node context := by
  constructor
  · intro h
    have hrun := h plainHost ⟨[⟨"a".toList, "t".toList, [], [], 0⟩], [], silentExecutors, []⟩
      .stored (fun _ => plainChoices) (.new []) [] _ [] rfl ⟨_, List.mem_singleton.mpr rfl, rfl⟩
    obtain ⟨message, hm⟩ := hrun.1
    cases hm
  · intro h
    have hstate := h plainHost silentExecutors ⟨"p".toList, "parallel".toList,
      [("nodes".toList, .arr [.obj [("type".toList, .str "t".toList)]])], [], 0⟩ []
      ⟨_, List.mem_singleton.mpr rfl, rfl⟩
    cases hstate

end NemesisBot.Engine
