import NemesisBot.Workflow.Types

/-! The context of a workflow run: variables, node results, input and identity. -/
namespace NemesisBot.Engine
open Strings

/-- An order in which the entries of a hash map come, or in which the tasks of a set finish. -/
structure Arrangement where
  arrange {β : Type} : List (Text × β) → List (Text × β)
  perm {β : Type} (entries : List (Text × β)) : (arrange entries).Perm entries

/-- The entries as they are stored. -/
def Arrangement.stored : Arrangement := ⟨id, List.Perm.refl⟩

structure WorkflowIdentity where
  executionId : Text
  workflowName : Text
  triggerLabel : Text
  sessionKey : Text
  chatId : Text
  senderId : Text
  recursionDepth : Nat
  deriving DecidableEq

/-- The identity of a context that is built without one. -/
def WorkflowIdentity.empty : WorkflowIdentity := ⟨[], [], [], [], [], [], 0⟩

def TriggerSource.label : TriggerSource → Text
  | .cli => "cli".toList
  | .cron => "cron".toList
  | .webhook _ => "webhook".toList
  | .agentTool _ _ _ _ _ => "agent-tool".toList
  | .chat _ _ _ _ => "chat".toList
  | .message _ _ _ _ => "message".toList
  | .webUI _ => "web-ui".toList
  | .event _ _ => "event".toList
  | .workflowChat _ _ _ _ _ => "workflow-chat".toList

/-- Session key, chat id and sender id. -/
def TriggerSource.identityTriple : TriggerSource → Text × Text × Text
  | .chat chatId sessionKey senderId _ => (sessionKey, chatId, senderId)
  | .agentTool _ _ sessionKey chatId senderId => (sessionKey, chatId, senderId)
  | .message _ chatId senderId _ => ([], chatId, senderId)
  | .workflowChat chatId _ _ _ sessionKey => (sessionKey, chatId, [])
  | _ => ([], [], [])

def depthFromTrigger : Option TriggerSource → Nat
  | some (.agentTool _ recursionDepth _ _ _) => recursionDepth
  | _ => 0

/-- The identity that `run_async` gives the nodes of an execution. -/
def runIdentity (executionId workflowName : Text) (trigger : Option TriggerSource) :
    WorkflowIdentity :=
  let triple := (trigger.map TriggerSource.identityTriple).getD ([], [], [])
  { executionId, workflowName
    triggerLabel := (trigger.map TriggerSource.label).getD "unknown".toList
    sessionKey := triple.1
    chatId := triple.2.1
    senderId := triple.2.2
    recursionDepth := depthFromTrigger trigger }

/-- Every run has a trigger label. -/
theorem runIdentity_ne_empty (executionId workflowName : Text) (trigger : Option TriggerSource) :
    runIdentity executionId workflowName trigger ≠ WorkflowIdentity.empty := by
  intro h
  have hl : (runIdentity executionId workflowName trigger).triggerLabel = [] := by rw [h]; rfl
  cases trigger with
  | none => cases hl
  | some source => cases source <;> cases hl

abbrev Results := List (Text × NodeResult)

structure WorkflowContext where
  vars : Fields
  nodeResults : Results
  input : Fields
  identity : WorkflowIdentity

/-- `WorkflowContext::new`. -/
def WorkflowContext.new (input : Fields) : WorkflowContext := ⟨[], [], input, .empty⟩

def WorkflowContext.setVar (ctx : WorkflowContext) (key : Text) (value : Json) :
    WorkflowContext :=
  { ctx with vars := insertField key value ctx.vars }

def WorkflowContext.setNodeResult (ctx : WorkflowContext) (nodeId : Text) (result : NodeResult) :
    WorkflowContext :=
  { ctx with nodeResults := insertField nodeId result ctx.nodeResults }

def WorkflowContext.getNodeResult (ctx : WorkflowContext) (nodeId : Text) : Option NodeResult :=
  ctx.nodeResults.lookup nodeId

def WorkflowContext.stateOf (ctx : WorkflowContext) (nodeId : Text) : Option ExecutionState :=
  (ctx.getNodeResult nodeId).map NodeResult.state

/-- Some node is waiting. -/
def anyWaiting (results : Results) : Bool := results.any fun e => e.2.state == .waiting

/-- The key of one field of an output. -/
def fieldKey (nodeId field : Text) : Text := nodeId ++ '.' :: field

/-- The entries `key.field` of an object, then the whole value under `key`. -/
def flattenEntry (context : Fields) (key : Text) (value : Json) : Fields :=
  insertField key value ((value.asObject.getD []).foldl
    (fun context field => insertField (fieldKey key field.1) field.2 context) context)

/-- What a node executor reads. Variables win over the input, and node results over both. -/
def buildExecutorContext (order : Arrangement) (ctx : WorkflowContext) : Fields :=
  let fromInput := (order.arrange ctx.input).foldl
    (fun context entry => flattenEntry context entry.1 entry.2) []
  let withVars := (order.arrange ctx.vars).foldl
    (fun context entry => insertField entry.1 entry.2 context) fromInput
  (order.arrange ctx.nodeResults).foldl
    (fun context entry => flattenEntry context entry.1 entry.2.output) withVars

/-- A node result with its output fields, as the scheduler records it. -/
def WorkflowContext.merge (ctx : WorkflowContext) (nodeId : Text) (result : NodeResult) :
    WorkflowContext :=
  ((result.output.asObject.getD []).foldl
    (fun ctx field => ctx.setVar (fieldKey nodeId field.1) field.2) ctx).setNodeResult
      nodeId result

theorem foldl_setVar (nodeId : Text) (fields : Fields) (ctx : WorkflowContext) :
    fields.foldl (fun ctx field => ctx.setVar (fieldKey nodeId field.1) field.2) ctx =
      let set vars (field : Text × Json) := insertField (fieldKey nodeId field.1) field.2 vars
      { ctx with vars := fields.foldl set ctx.vars } := by
  induction fields generalizing ctx with
  | nil => rfl
  | cons field fields ih => exact ih (ctx.setVar (fieldKey nodeId field.1) field.2)

@[simp] theorem merge_nodeResults (ctx : WorkflowContext) (nodeId : Text) (result : NodeResult) :
    (ctx.merge nodeId result).nodeResults = insertField nodeId result ctx.nodeResults := by
  simp [WorkflowContext.merge, WorkflowContext.setNodeResult, foldl_setVar]

@[simp] theorem merge_identity (ctx : WorkflowContext) (nodeId : Text) (result : NodeResult) :
    (ctx.merge nodeId result).identity = ctx.identity := by
  simp [WorkflowContext.merge, WorkflowContext.setNodeResult, foldl_setVar]

theorem stateOf_merge (ctx : WorkflowContext) (nodeId other : Text) (result : NodeResult) :
    (ctx.merge nodeId result).stateOf other =
      if other = nodeId then some result.state else ctx.stateOf other := by
  rw [WorkflowContext.stateOf, WorkflowContext.getNodeResult, merge_nodeResults,
    lookup_insertField]
  split
  · rfl
  · rfl

end NemesisBot.Engine
