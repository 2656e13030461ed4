import NemesisBot.Workflow.Scheduler

/-! The parallel and the loop executor. -/
namespace NemesisBot.Engine
open Strings

/-- A child that returned with state Failed. -/
def Outcome.failedResult : Outcome → Bool
  | .ok result => result.state == .failed
  | _ => false

/-- Failed with an error, Completed without one. -/
def stateFor (error : Option Text) : ExecutionState := if error.isSome then .failed else .completed

variable (host : Host) (executors : NodeExecutorRegistry)

/-! Parallel. -/

def branchKey (idx : Nat) : Text := "branch_".toList ++ Nat.toDigits 10 idx

/-- What the task of a child returns. -/
def branchOutcome (context : Fields) (idx : Nat) (child : NodeDef) : Outcome :=
  match executors child.nodeType with
  | none => .err ("unknown node type ".toList ++ host.debug child.nodeType ++
      " in parallel block".toList)
  | some executor => executor child context (.new context) idx

def pausedBranch (key : Text) (state : ExecutionState) : Text :=
  "parallel 分支 ".toList ++ key ++ " 返回 ".toList ++ state.text ++
    " 状态：暂停类节点不支持在 composite 内（审批落地前 workflow 不得继续）".toList

/-- The error text of a branch. -/
def branchError (key : Text) : Outcome → Option Text
  | .ok result => match result.state with
    | .failed => result.error
    | .waiting | .cancelled => some (pausedBranch key result.state)
    | .pending | .running | .completed => none
  | .err e | .panic e => some e

/-- The entry of a branch in the merged output. -/
def branchOutput (key : Text) : Outcome → Option Json
  | .ok result => match result.state with
    | .failed => some (.obj [("error".toList, (result.error.map Json.str).getD .null),
        ("output".toList, result.output)])
    | .waiting | .cancelled => some (.obj [("error".toList, .str (pausedBranch key result.state)),
        ("state".toList, .str result.state.text)])
    | .pending | .running | .completed => some result.output
  | .err e => some (.obj [("error".toList, .str e)])
  | .panic _ => none

def branchOutcomes (node : NodeDef) (context : Fields) : List (Text × Outcome) :=
  (parallelChildren node.config).mapIdx fun idx child =>
    (branchKey idx, branchOutcome host executors context idx child)

def parallelExecute (node : NodeDef) (context : Fields) : NodeResult :=
  let outcomes := branchOutcomes host executors node context
  if outcomes = [] then
    nodeResult node (.obj [("results".toList, .arr [])]) none .completed
  else
    let merged := outcomes.filterMap fun o => (branchOutput o.1 o.2).map fun v => (o.1, v)
    let firstError := outcomes.findSome? fun o => branchError o.1 o.2
    nodeResult node (.object merged) firstError (stateFor firstError)

/-! Loop. -/

structure LoopState where
  localCtx : Fields
  lastOutput : Json
  /-- how the calls of the children ended, in order -/
  calls : List Outcome

/-- Where a child, or a whole iteration, leaves the loop. -/
inductive LoopStep where
  | next (s : LoopState)
  | failed (s : LoopState) (error : Text)
  | panicked (s : LoopState) (message : Text)

/-- A child's output under its id, and its fields both alone and behind its id. -/
def mergeChild (context : Fields) (childId : Text) (output : Json) : Fields :=
  (output.asObject.getD []).foldl (fun context field =>
      insertField (fieldKey childId field.1) field.2 (insertField field.1 field.2 context))
    (insertField childId output context)

def iterationText (i : Nat) (childId : Text) : Text :=
  "loop iteration ".toList ++ Nat.toDigits 10 i ++ " node ".toList ++ childId

def runChild (localWfCtx : WorkflowContext) (i : Nat) (child : NodeDef) (s : LoopState) :
    LoopStep :=
  match executors child.nodeType with
  | none => .failed s ("unknown node type ".toList ++ host.debug child.nodeType ++
      " in loop body".toList)
  | some executor =>
    let outcome := executor child s.localCtx localWfCtx s.calls.length
    let called := { s with calls := s.calls ++ [outcome] }
    match outcome with
    | .panic message => .panicked called message
    | .err e => .failed called (iterationText i child.id ++ ": ".toList ++ e)
    | .ok result => match result.state with
      | .failed =>
        .failed called (result.error.getD (iterationText i child.id ++ " failed".toList))
      | .waiting | .cancelled => .failed called (iterationText i child.id ++ " 返回 ".toList ++
          result.state.text ++
          " 状态：暂停类节点不支持在 composite 内（审批落地前 workflow 不得继续）".toList)
      | .pending | .running | .completed =>
        .next { called with
          localCtx := mergeChild s.localCtx child.id result.output
          lastOutput := result.output }

def runBody (localWfCtx : WorkflowContext) (i : Nat) : List NodeDef → LoopState → LoopStep
  | [], s => .next s
  | child :: rest, s => match runChild host executors localWfCtx i child s with
    | .next s => runBody localWfCtx i rest s
    | stop => stop

/-- The settings of a loop node. `items` when it runs for each of them. -/
structure LoopPlan where
  children : List NodeDef
  condition : Text
  items : Option (List Json)
  itemVar : Text

/-- The index and, in foreach mode, the current element. -/
def bindIteration (plan : LoopPlan) (i : Nat) (context : Fields) : Fields :=
  let indexed := insertField "loop_index".toList (.nat i) (insertField "i".toList (.nat i) context)
  match plan.items with
  | none => indexed
  | some items =>
    let item := (items[i]?).getD .null
    let bound := insertField "item".toList item (insertField "item_index".toList (.nat i) indexed)
    if plan.itemVar = "item".toList then bound else insertField plan.itemVar item bound

inductive LoopEnd where
  | done
  | failed (error : Text)
  | panicked (message : Text)
  /-- the evaluation of the condition does not end within its bound -/
  | stuck

structure LoopRun where
  state : LoopState
  iterations : Nat
  ending : LoopEnd

/-- Iterations from number `i` on. The condition counts from the second one. -/
def iterate (order : Nat → Arrangement) (fuel : Nat) (plan : LoopPlan)
    (localWfCtx : WorkflowContext) : Nat → Nat → LoopState → LoopRun
  | 0, i, s => ⟨s, i, .done⟩
  | remaining + 1, i, s =>
    let bound := { s with localCtx := bindIteration plan i s.localCtx }
    let goesOn := if plan.condition ≠ [] ∧ 0 < i then
        evaluateCondition host (order i) bound.localCtx fuel plan.condition
      else some true
    match goesOn with
    | none => ⟨bound, i, .stuck⟩
    | some false => ⟨bound, i, .done⟩
    | some true => match runBody host executors localWfCtx i plan.children bound with
      | .next s => iterate order fuel plan localWfCtx remaining (i + 1) s
      | .failed s error => ⟨s, i, .failed error⟩
      | .panicked s message => ⟨s, i, .panicked message⟩

def loopMode (config : Fields) : Text :=
  ((config.lookup "mode".toList).bind Json.asStr).getD "counter".toList

def isForeach (config : Fields) : Bool := loopMode config == "foreach".toList

/-- The result of the loop after its last iteration; none when it does not return. -/
def LoopRun.outcome (node : NodeDef) (items : Option (List Json)) (r : LoopRun) :
    Option Outcome :=
  let counts := (items.toList.flatMap fun items => [("items_count".toList, Json.nat items.length),
    ("items_iterated".toList, .nat r.iterations)])
  let result error := some (.ok (nodeResult node
    (.obj (counts ++ [("iterations".toList, .nat r.iterations),
      ("last_output".toList, r.state.lastOutput), ("mode".toList, .str (loopMode node.config))]))
    error (stateFor error)))
  match r.ending with
  | .done => result none
  | .failed error => result (some error)
  | .panicked message => some (.panic message)
  | .stuck => none

/-- `LoopNodeExecutor::execute`: how it ends, and the calls of children it makes. -/
def loopExecute (order : Nat → Arrangement) (fuel : Nat) (node : NodeDef) (context : Fields) :
    Option Outcome × List Outcome :=
  let config := node.config
  let mode := Json.str (loopMode config)
  let children := loopChildren config
  if children.isEmpty then
    (some (.ok (nodeResult node (.obj [("iterations".toList, .nat 0), ("last_output".toList, .null),
      ("mode".toList, mode)]) none .completed)), [])
  else
    let cap := min (((config.lookup "max_iterations".toList).bind Json.asU64).getD 10) 100
    let items := if isForeach config then
        (host.resolveItemsList ((config.lookup "items".toList).getD .null) context).map some
      else .ok none
    match items with
    | .error e => (some (.ok (nodeResult node (.obj [("iterations".toList, .nat 0),
        ("mode".toList, mode)]) (some e) .failed)), [])
    | .ok items =>
      let plan : LoopPlan :=
        { children, items
          condition := ((config.lookup "condition".toList).bind Json.asStr).getD []
          itemVar := ((config.lookup "item_var".toList).bind Json.asStr).getD "item".toList }
      let count := (items.map fun items => min items.length cap).getD cap
      let r := iterate host executors order fuel plan (.new context) count 0 ⟨context, .null, []⟩
      (r.outcome node items, r.state.calls)

/-! A loop whose child fails, fails. -/

variable {host executors}

/-- No child has returned Failed. -/
def LoopState.Clean (s : LoopState) : Prop := ∀ o ∈ s.calls, o.failedResult = false

/-- Unless the loop ends with an error here. -/
def LoopStep.Clean : LoopStep → Prop
  | .next s | .panicked s _ => s.Clean
  | .failed _ _ => True

theorem runChild_clean {s : LoopState} (h : s.Clean) (localWfCtx : WorkflowContext) (i : Nat)
    (child : NodeDef) : (runChild host executors localWfCtx i child s).Clean := by
  have hcalled (o : Outcome) (ho : o.failedResult = false) :
      ∀ p ∈ s.calls ++ [o], p.failedResult = false := by
    intro p hp
    cases List.mem_append.mp hp with
    | inl hp => exact h p hp
    | inr hp => rwa [List.mem_singleton.mp hp]
  rw [runChild]
  cases executors child.nodeType with
  | none => trivial
  | some executor =>
    cases ho : executor child s.localCtx localWfCtx s.calls.length with
    | err e => simp [ho, LoopStep.Clean]
    | panic message =>
      simp only [ho]
      exact hcalled (.panic message) rfl
    | ok result =>
      cases hs : result.state with
      | failed | waiting | cancelled => simp [ho, hs, LoopStep.Clean]
      | pending | running | completed =>
        simp only [ho, hs]
        exact hcalled (.ok result) (by simp [Outcome.failedResult, hs])

theorem runBody_clean {s : LoopState} (h : s.Clean) (localWfCtx : WorkflowContext) (i : Nat)
    (children : List NodeDef) : (runBody host executors localWfCtx i children s).Clean := by
  induction children generalizing s with
  | nil => exact h
  | cons child rest ih =>
    have hc : (runChild host executors localWfCtx i child s).Clean := runChild_clean h _ _ _
    rw [runBody]
    split
    · rename_i t ht
      rw [ht] at hc
      exact ih hc
    · exact hc

/-- A loop that does not end with an error has called no child that returned Failed. -/
theorem iterate_clean {s : LoopState} (h : s.Clean) (order : Nat → Arrangement) (fuel : Nat)
    (plan : LoopPlan) (localWfCtx : WorkflowContext) (remaining i : Nat) :
    let r := iterate host executors order fuel plan localWfCtx remaining i s
    (∃ error, r.ending = .failed error) ∨ r.state.Clean := by
  induction remaining generalizing i s with
  | zero => exact Or.inr h
  | succ remaining ih =>
    have hbound : LoopState.Clean { s with localCtx := bindIteration plan i s.localCtx } := h
    have hb : LoopStep.Clean (runBody host executors localWfCtx i plan.children
      { s with localCtx := bindIteration plan i s.localCtx }) := runBody_clean hbound _ _ _
    simp only [iterate]
    split
    · exact Or.inr hbound
    · exact Or.inr hbound
    · split
      · rename_i t ht
        rw [ht] at hb
        exact ih hb _
      · exact Or.inl ⟨_, rfl⟩
      · rename_i t message ht
        rw [ht] at hb
        exact Or.inr hb

end NemesisBot.Engine
