import NemesisBot.Lib.Json

/-! Workflow definitions, node results and executions. -/
namespace NemesisBot.Engine
open Strings

inductive ExecutionState where
  | pending
  | running
  | completed
  | failed
  | cancelled
  | waiting
  deriving DecidableEq, Repr

def ExecutionState.text : ExecutionState → Text
  | .pending => "pending".toList
  | .running => "running".toList
  | .completed => "completed".toList
  | .failed => "failed".toList
  | .cancelled => "cancelled".toList
  | .waiting => "waiting".toList

structure NodeDef where
  id : Text
  nodeType : Text
  config : Fields
  dependsOn : List Text
  retryCount : Nat

structure Edge where
  fromNode : Text
  toNode : Text
  condition : Option Text

structure TriggerConfig where
  triggerType : Text
  config : Fields

structure Workflow where
  name : Text
  triggers : List TriggerConfig
  nodes : List NodeDef
  edges : List Edge
  vars : List (Text × Text)

structure NodeResult where
  nodeId : Text
  output : Json
  error : Option Text
  state : ExecutionState
  metadata : Fields

/-- A node result without metadata. -/
def nodeResult (node : NodeDef) (output : Json) (error : Option Text) (state : ExecutionState) :
    NodeResult :=
  ⟨node.id, output, error, state, []⟩

inductive TriggerSource where
  | cli
  | cron
  | webhook (payload : Json)
  | agentTool (toolCallId : Text) (recursionDepth : Nat) (sessionKey chatId senderId : Text)
  | chat (chatId sessionKey senderId message : Text)
  | message (channel chatId senderId content : Text)
  | webUI (sessionId : Text)
  | event (eventType : Text) (data : Json)
  | workflowChat (chatId sessionId workflowName index sessionKey : Text)

/-! Composite nodes keep their children in the configuration. -/

/-- A child of a composite node, from its entry in the configuration. -/
def childNode (fields : Fields) : NodeDef where
  id := ((fields.lookup "id".toList).bind Json.asStr).getD []
  nodeType := (((fields.lookup "node_type".toList).or (fields.lookup "type".toList)).bind
    Json.asStr).getD []
  config := ((fields.lookup "config".toList).bind Json.asObject).getD []
  dependsOn := (((fields.lookup "depends_on".toList).bind Json.asArray).getD []).filterMap
    Json.asStr
  retryCount := ((fields.lookup "retry_count".toList).bind Json.asU64).getD 0

def getConfigNodeList (config : Fields) (key : Text) : List NodeDef :=
  (((config.lookup key).bind Json.asArray).getD []).filterMap fun item =>
    item.asObject.map childNode

/-- The children that the parallel executor runs: `nodes`, or `branches` without them. -/
def parallelChildren (config : Fields) : List NodeDef :=
  let nodes := getConfigNodeList config "nodes".toList
  if nodes.isEmpty then getConfigNodeList config "branches".toList else nodes

def loopChildren (config : Fields) : List NodeDef := getConfigNodeList config "nodes".toList

/-- The name that the sub_workflow executor runs, when it is not empty. -/
def workflowName (config : Fields) : Option Text :=
  ((config.lookup "workflow".toList).bind Json.asStr).filter (· ≠ [])

end NemesisBot.Engine
