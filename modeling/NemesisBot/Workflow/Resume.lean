import NemesisBot.Lib.Runs
import NemesisBot.Workflow.Scheduler

/-! One execution from its run through its pauses and resumes. Operations on it come one
after the other; a step is a call up to its first level, or one level of the schedule. -/
namespace NemesisBot.Engine.Resume
open Strings Runs

/-- What an execution is created with. -/
structure Setup where
  workflow : Workflow
  executors : NodeExecutorRegistry
  executionId : Text
  trigger : Option TriggerSource
  input : Fields

inductive Event where
  /-- the conditional edges of the node are not all true -/
  | dropped (node : Text)
  | executed (node : Text) (context : Fields) (identity : WorkflowIdentity)
  /-- the result of the node becomes Completed -/
  | completed (node : Text)
  /-- the review of the node arrives; none when a child execution takes it -/
  | resumed (node : Text) (review : Option Fields)

def Event.resumes : Event → Bool
  | .resumed _ _ => true
  | _ => false

def Event.ran : Event → Option Text
  | .executed node _ _ => some node
  | _ => none

/-- A schedule that is under way. -/
structure Pass where
  skip : List Text
  levels : List (List Text)
  ctx : WorkflowContext

structure State where
  recorded : ExecutionState
  vars : Fields
  nodeResults : Results
  pass : Option Pass
  log : List Event

/-- The execution as `create_execution` leaves it. -/
def start : State := ⟨.running, [], [], none, []⟩

/-- How the child of a sub_workflow node answers a review. -/
inductive ChildReply where
  | error
  | waiting (output : Json)
  | completed (output : Json)
  | failed (output : Json) (message : Text)

inductive Act where
  | run (order : Arrangement)
  | level (choices : Choices)
  | review (target : Option Text) (review : Fields) (order : Arrangement)
  /-- the waiting node is a sub_workflow node -/
  | reviewChild (target : Option Text) (reply : ChildReply) (order : Arrangement)

/-- The call returns: its context is copied back. -/
def State.settle (s : State) (ctx : WorkflowContext) (result : Except Text ScheduleOutcome) :
    State :=
  { s with
    recorded := match result with
      | .ok .completed => if anyWaiting ctx.nodeResults then .waiting else .completed
      | .ok .cancelled => .cancelled
      | .error _ => .failed
    vars := ctx.vars
    nodeResults := ctx.nodeResults
    pass := none }

/-- Goes on with the levels that are left. -/
def State.proceed (s : State) (pass : Pass) : State :=
  if pass.levels = [] then s.settle pass.ctx (.ok .completed)
  else { s with recorded := .running, pass := some pass }

def State.beginPass (setup : Setup) (s : State) (order : Arrangement) (skip : List Text)
    (ctx : WorkflowContext) : State :=
  match topologicalSort order setup.workflow.nodes setup.workflow.edges with
  | .error e => s.settle ctx (.error e)
  | .ok levels => s.proceed ⟨skip, levels, ctx⟩

def stateIn (results : Results) (id : Text) : Option ExecutionState :=
  (results.lookup id).map NodeResult.state

/-- The nodes with a result in this state. -/
def idsIn (state : ExecutionState) (results : Results) : List Text :=
  (results.map Prod.fst).filter fun id => stateIn results id = some state

/-- The waiting node that a review is for; without a target there must be exactly one. -/
def resumeTarget (results : Results) : Option Text → Option Text
  | some target => if (idsIn .waiting results).contains target then some target else none
  | none => match idsIn .waiting results with
    | [id] => some id
    | _ => none

def nodeTypeOf (setup : Setup) (id : Text) : Text :=
  ((setup.workflow.nodes.find? fun n => n.id = id).map NodeDef.nodeType).getD []

/-- The context of the first run. -/
def runContext (setup : Setup) : WorkflowContext :=
  setup.workflow.vars.foldl (fun ctx v => ctx.setVar v.1 (.str v.2))
    { WorkflowContext.new setup.input with
      identity := runIdentity setup.executionId setup.workflow.name setup.trigger }

/-- The context of a resume, built from the execution. -/
def resumeContext (setup : Setup) (s : State) : WorkflowContext :=
  { WorkflowContext.new setup.input with vars := s.vars, nodeResults := s.nodeResults }

/-- The waiting node's result is settled; the schedule starts over without what is completed. -/
def State.resumeWith (setup : Setup) (s : State) (order : Arrangement) (id : Text)
    (result : NodeResult) (events : List Event) : State :=
  let s := { s with nodeResults := insertField id result s.nodeResults, log := s.log ++ events }
  s.beginPass setup order (idsIn .completed s.nodeResults) (resumeContext setup s)

def levelEvents (trace : LevelTrace) : List Event :=
  trace.dropped.map .dropped ++
    trace.executed.map (fun e => .executed e.1 trace.context trace.ctx.identity) ++
    (trace.merged.filter fun m => m.2 = .completed).map fun m => .completed m.1

def Pass.schedule (setup : Setup) (pass : Pass) : Schedule :=
  ⟨setup.workflow.nodes, setup.workflow.edges, setup.executors, pass.skip⟩

variable (host : Host) (setup : Setup)

def State.runLevel (s : State) (pass : Pass) (choices : Choices) (level : List Text)
    (rest : List (List Text)) : State :=
  let r := Engine.runLevel host (pass.schedule setup) choices pass.ctx level
  let s := { s with log := s.log ++ levelEvents r.trace }
  match r.ending with
  | .next => s.proceed { pass with levels := rest, ctx := r.ctx }
  | .stop result => s.settle r.ctx result

/-- The waiting node and its result, when the execution waits for a review. -/
def State.waitingNode (s : State) (target : Option Text) : Option (Text × NodeResult) :=
  if s.recorded = .waiting then
    (resumeTarget s.nodeResults target).bind fun id =>
      (s.nodeResults.lookup id).map fun result => (id, result)
  else none

def step (s : State) : Act → Option State
  | .run order =>
    if s.recorded = .running ∧ s.pass.isNone then
      some (s.beginPass setup order [] (runContext setup))
    else none
  | .level choices => match s.pass with
    | some pass => match pass.levels with
      | level :: rest => some (s.runLevel host setup pass choices level rest)
      | [] => none
    | none => none
  | .review target review order => (s.waitingNode target).bind fun (id, result) =>
    if nodeTypeOf setup id = "sub_workflow".toList then none
    else some (s.resumeWith setup order id
      { result with output := .object review, state := .completed }
      [.resumed id (some review), .completed id])
  | .reviewChild target reply order => (s.waitingNode target).bind fun (id, result) =>
    if nodeTypeOf setup id = "sub_workflow".toList then
      match reply with
      | .error => some s
      | .waiting output =>
        some { s with nodeResults := insertField id { result with output } s.nodeResults }
      | .completed output => some (s.resumeWith setup order id
          { result with output, state := .completed, error := none }
            [.resumed id none, .completed id])
      | .failed output message =>
        let failed := { result with output, state := .failed, error := some message }
        some { s with recorded := .failed, nodeResults := insertField id failed s.nodeResults }
    else none

/-! What a step can do. -/

theorem mem_idsIn {state : ExecutionState} {results : Results} {id : Text} :
    id ∈ idsIn state results ↔ stateIn results id = some state := by
  rw [idsIn, List.mem_filter, decide_eq_true_eq]
  refine ⟨fun h => h.2, fun h => ⟨?_, h⟩⟩
  obtain ⟨r, hr, -⟩ := Option.map_eq_some_iff.mp h
  exact mem_keys_of_lookup hr

theorem stateIn_insertField (results : Results) (id other : Text) (result : NodeResult) :
    stateIn (insertField id result results) other =
      if other = id then some result.state else stateIn results other := by
  rw [stateIn, lookup_insertField]
  split <;> rfl

theorem resumeTarget_waiting {results : Results} {target : Option Text} {id : Text}
    (h : resumeTarget results target = some id) : stateIn results id = some .waiting := by
  cases target with
  | some target =>
    simp only [resumeTarget] at h
    split at h
    · rename_i hc
      obtain rfl := Option.some.inj h
      exact mem_idsIn.mp (by simpa using hc)
    · cases h
  | none =>
    simp only [resumeTarget] at h
    split at h
    · rename_i only hids
      obtain rfl := Option.some.inj h
      exact mem_idsIn.mp (by simp [hids])
    · cases h

/-- A review is for a waiting node of an execution without a schedule under way. -/
theorem waitingNode_spec {s : State} {target : Option Text} {id : Text} {result : NodeResult}
    (h : s.waitingNode target = some (id, result)) :
    s.recorded = .waiting ∧ stateIn s.nodeResults id = some .waiting := by
  rw [State.waitingNode] at h
  split at h
  · rename_i hw
    obtain ⟨id', ht, h⟩ := Option.bind_eq_some_iff.mp h
    obtain ⟨result', -, he⟩ := Option.map_eq_some_iff.mp h
    obtain ⟨rfl, rfl⟩ := Prod.mk.inj he
    exact ⟨hw, resumeTarget_waiting ht⟩
  · cases h

/-- The ways in which a step changes the state. -/
inductive Moved (s : State) : Act → State → Prop
  | run {order : Arrangement} (hrun : s.recorded = .running) (hp : s.pass.isNone) :
      Moved s (.run order) (s.beginPass setup order [] (runContext setup))
  | level {choices : Choices} {pass : Pass} {level : List Text} {rest : List (List Text)}
      (hp : s.pass = some pass) (hl : pass.levels = level :: rest) :
      Moved s (.level choices) (s.runLevel host setup pass choices level rest)
  /-- a review settles the waiting node -/
  | resumed {act : Act} {order : Arrangement} {id : Text} {result : NodeResult}
      {events : List Event} (hw : s.recorded = .waiting) (hr : result.state = .completed)
      (he : ∀ e ∈ events, e.ran = none) (hid : ∀ node, .completed node ∈ events → node = id)
      (hres : ∃ e ∈ events, e.resumes = true) :
      Moved s act (s.resumeWith setup order id result events)
  /-- a review changes the waiting node's result only -/
  | stored {act : Act} {id : Text} {result : NodeResult} {recorded : ExecutionState}
      (hw : s.recorded = .waiting) (hid : stateIn s.nodeResults id = some .waiting)
      (hr : recorded ≠ .running) :
      Moved s act { s with recorded, nodeResults := insertField id result s.nodeResults }
  | same {act : Act} : Moved s act s

variable {host setup} in
theorem step_moved {s t : State} {act : Act} (hs : step host setup s act = some t) :
    Moved host setup s act t := by
  cases act with
  | run order =>
    simp only [step] at hs
    split at hs
    · rename_i hrun
      obtain rfl := Option.some.inj hs
      exact .run hrun.1 hrun.2
    · cases hs
  | level choices =>
    simp only [step] at hs
    split at hs
    · rename_i pass hp
      split at hs
      · rename_i level rest hl
        obtain rfl := Option.some.inj hs
        exact .level hp hl
      · cases hs
    · cases hs
  | review target review order =>
    obtain ⟨⟨id, result⟩, hw, hs⟩ := Option.bind_eq_some_iff.mp hs
    obtain ⟨hrec, -⟩ := waitingNode_spec hw
    dsimp only at hs
    split at hs
    · cases hs
    · obtain rfl := Option.some.inj hs
      exact .resumed hrec rfl (by simp [Event.ran]) (by simp) ⟨_, List.mem_cons_self, rfl⟩
  | reviewChild target reply order =>
    obtain ⟨⟨id, result⟩, hw, hs⟩ := Option.bind_eq_some_iff.mp hs
    obtain ⟨hrec, hid⟩ := waitingNode_spec hw
    dsimp only at hs
    split at hs
    · cases reply with
      | error =>
        obtain rfl := Option.some.inj hs
        exact .same
      | waiting output =>
        obtain rfl := Option.some.inj hs
        have hne : s.recorded ≠ .running := by simp [hrec]
        exact .stored hrec hid hne
      | completed output =>
        obtain rfl := Option.some.inj hs
        exact .resumed hrec rfl (by simp [Event.ran]) (by simp) ⟨_, List.mem_cons_self, rfl⟩
      | failed output message =>
        obtain rfl := Option.some.inj hs
        exact .stored hrec hid (by decide)
    · cases hs

/-- Level by level, a call does what `schedule_inner` does. -/
theorem run_pass (skip : List Text) (choices : Nat → Choices) (s : State)
    (levels : List (List Text)) (ctx : WorkflowContext) (k : Nat) :
    let r := runLevels host (Pass.schedule setup ⟨skip, levels, ctx⟩) choices k ctx levels
    ∃ m, run (step host setup) (s.proceed ⟨skip, levels, ctx⟩)
        ((List.range' k m).map fun i => .level (choices i)) =
      some ({ s with log := s.log ++ r.trace.flatMap levelEvents }.settle r.ctx r.result) := by
  induction levels generalizing s ctx k with
  | nil => exact ⟨0, by simp [run, State.proceed, runLevels]⟩
  | cons level rest ih =>
    have hproceed : s.proceed ⟨skip, level :: rest, ctx⟩ =
        { s with recorded := .running, pass := some ⟨skip, level :: rest, ctx⟩ } := by
      simp [State.proceed]
    simp only [runLevels, Pass.schedule] at ih ⊢
    cases he : (runLevel host ⟨setup.workflow.nodes, setup.workflow.edges, setup.executors, skip⟩
        (choices k) ctx level).ending with
    | stop result =>
      refine ⟨1, ?_⟩
      simp only [hproceed, List.range'_one, List.map_cons, List.map_nil, run, step, State.runLevel,
        Pass.schedule, he, List.flatMap_singleton]
      rfl
    | next =>
      obtain ⟨m, hm⟩ := ih { s with
        recorded := .running
        pass := some ⟨skip, level :: rest, ctx⟩
        log := s.log ++ levelEvents (runLevel host ⟨setup.workflow.nodes, setup.workflow.edges,
          setup.executors, skip⟩ (choices k) ctx level).trace } _ (k + 1)
      refine ⟨m + 1, ?_⟩
      rw [List.range'_succ, List.map_cons, hproceed]
      simp only [run, step, State.runLevel, Pass.schedule, he]
      refine hm.trans ?_
      simp [State.settle]

/-! A step and a review after the node `a`, with a condition on the step. -/

def reviewed (cond : String) : Workflow where
  name := "reviewed".toList
  triggers := []
  nodes := [⟨"a".toList, "step".toList, [], [], 0⟩,
    ⟨"h".toList, "human_review".toList, [], ["a".toList], 0⟩,
    ⟨"d".toList, "step".toList, [], [], 0⟩]
  edges := [⟨"a".toList, "d".toList, some cond.toList⟩]
  vars := []

/-- A review waits, and every other node completes. -/
def reviewExecutors : NodeExecutorRegistry := fun nodeType => some fun node _ _ _ =>
  if nodeType = "human_review".toList then
    .ok (nodeResult node (.obj [("message".toList, .str "Human review required".toList),
      ("status".toList, .str "waiting_for_review".toList)]) none .waiting)
  else .ok (nodeResult node .null none .completed)

def reviewSetup (cond : String) : Setup :=
  ⟨reviewed cond, reviewExecutors, "1".toList, some .cli, []⟩

/-- Run up to the review, approve, and run the rest. -/
def approvedRun : List Act :=
  [.run .stored, .level plainChoices, .level plainChoices,
    .review none [("approved".toList, .bool true)] .stored, .level plainChoices,
    .level plainChoices]

end NemesisBot.Engine.Resume
