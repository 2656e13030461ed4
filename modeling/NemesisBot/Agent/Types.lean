import Mathlib

/-! Conversation turns and tool calls of the agent. -/
namespace NemesisBot.Agent

structure ToolCallInfo where
  id : String
  name : String
  arguments : String
  deriving DecidableEq, Repr

structure ConversationTurn where
  role : String
  content : String
  toolCalls : List ToolCallInfo
  toolCallId : Option String
  timestamp : String
  reasoningContent : Option String
  toolName : Option String
  toolResultProjection : Option String
  imageRefs : List String
  deriving DecidableEq, Repr

/-- The ids an assistant message calls. -/
def callsOf (m : ConversationTurn) : List String :=
  if m.role = "assistant" then m.toolCalls.map ToolCallInfo.id else []

/-- The id a tool message answers. -/
def answerOf (m : ConversationTurn) : Option String :=
  if m.role = "tool" then m.toolCallId else none

def calls (ms : List ConversationTurn) : List String := ms.flatMap callsOf

def answers (ms : List ConversationTurn) : List String := ms.filterMap answerOf

def nonTool (ms : List ConversationTurn) : List ConversationTurn :=
  ms.filter fun m => m.role ≠ "tool"

@[simp] theorem calls_nil : calls [] = [] := rfl

@[simp] theorem calls_cons (m : ConversationTurn) (ms : List ConversationTurn) :
    calls (m :: ms) = callsOf m ++ calls ms := rfl

@[simp] theorem calls_append (ms ns : List ConversationTurn) :
    calls (ms ++ ns) = calls ms ++ calls ns := by
  simp [calls]

@[simp] theorem answers_nil : answers [] = [] := rfl

@[simp] theorem answers_append (ms ns : List ConversationTurn) :
    answers (ms ++ ns) = answers ms ++ answers ns := by
  simp [answers]

theorem answers_cons (m : ConversationTurn) (ms : List ConversationTurn) :
    answers (m :: ms) = (answerOf m).toList ++ answers ms := by
  cases h : answerOf m <;> simp [answers, h]

@[simp] theorem nonTool_append (ms ns : List ConversationTurn) :
    nonTool (ms ++ ns) = nonTool ms ++ nonTool ns := by
  simp [nonTool]

theorem nonTool_cons (m : ConversationTurn) (ms : List ConversationTurn) :
    nonTool (m :: ms) = nonTool [m] ++ nonTool ms := by
  rw [← nonTool_append, List.singleton_append]

theorem role_of_answerOf {m : ConversationTurn} {id : String} (h : answerOf m = some id) :
    m.role = "tool" := by
  by_contra hr
  simp [answerOf, hr] at h

theorem answerOf_of_role_ne {m : ConversationTurn} (h : m.role ≠ "tool") : answerOf m = none := by
  simp [answerOf, h]

theorem callsOf_of_tool {m : ConversationTurn} (h : m.role = "tool") : callsOf m = [] := by
  simp [callsOf, h]

theorem mem_answers_iff (id : String) (ms : List ConversationTurn) :
    id ∈ answers ms ↔ ∃ m ∈ ms, answerOf m = some id := by
  simp [answers]

end NemesisBot.Agent
