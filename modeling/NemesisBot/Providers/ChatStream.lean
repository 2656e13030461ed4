import NemesisBot.Providers.ThinkStrip
import NemesisBot.Lib.Json

/-! The streaming lane of a provider: frames of the server in, chunks of the reply out. -/
namespace NemesisBot.Providers
open Strings

inductive FailoverError where
  | timeout (provider model : Text)
  | streamInterrupted (provider model reason partialContent : Text) (hasPartialToolCalls : Bool)
  | other (message : Text)

def streamPartialSeparator : Text := "\n\n--- 以下为中断前已生成的部分内容 ---\n".toList

def streamToolCallsTruncatedMark : Text := "，工具调用已截断（不可拼接续写）".toList

def FailoverError.text : FailoverError → Text
  | .timeout provider model => "timeout calling provider ".toList ++ provider ++ '/' :: model
  | .streamInterrupted provider model reason partialContent hasPartialToolCalls =>
    "stream interrupted from provider ".toList ++ provider ++ '/' :: model ++ ": ".toList ++
      reason ++ "（已接收 ".toList ++ Nat.toDigits 10 partialContent.length ++ " 字符".toList ++
      (if hasPartialToolCalls then streamToolCallsTruncatedMark else []) ++
      "，中断前部分文本随错误通知保留）\n\n".toList ++ streamPartialSeparator ++ partialContent
  | .other message => message

structure ToolCall where
  id : Text
  name : Text
  arguments : Text
  deriving DecidableEq

/-- A part of a call, for the call at an index. -/
structure ToolDelta where
  index : Nat
  id : Option Text
  name : Option Text
  arguments : Option Text

/-- What is read of a frame. `noChoices` when its choices are missing or empty. -/
structure Frame where
  content : Option Text
  reasoningContent : Option Text
  finishReason : Option Text
  toolCalls : List ToolDelta
  noChoices : Bool
  usage : Option Json

def Frame.text (f : Frame) : Text := f.content.getD []

structure StreamChunk where
  delta : Text
  toolCalls : List ToolCall
  finishReason : Option Text
  usage : Option Json
  reasoningContent : Option Text

def ToolDelta.extend (d : ToolDelta) (call : ToolCall) : ToolCall where
  id := d.id.getD call.id
  name := d.name.getD call.name
  arguments := call.arguments ++ d.arguments.getD []

/-- The calls so far, in the order of their indices. -/
abbrev PendingCalls := List (Nat × ToolCall)

def addToolDelta (d : ToolDelta) : PendingCalls → PendingCalls
  | [] => [(d.index, d.extend ⟨[], [], []⟩)]
  | (index, call) :: rest =>
    if d.index < index then (d.index, d.extend ⟨[], [], []⟩) :: (index, call) :: rest
    else if d.index = index then (index, d.extend call) :: rest
    else (index, call) :: addToolDelta d rest

structure Lane where
  stripper : ThinkStripper
  accumulatedReasoning : Text
  pendingToolCalls : PendingCalls
  finishEmitted : Bool

def Lane.new : Lane := ⟨.new, [], [], false⟩

/-- Chunks that only carry the usage. -/
def usageChunk (f : Frame) : Option StreamChunk :=
  if f.noChoices then f.usage.map fun usage => ⟨[], [], none, some usage, none⟩ else none

def reasoningField (reasoning : Text) : Option Text :=
  if reasoning = [] then none else some reasoning

/-- The chunk of a frame. Behind the final chunk only the usage is passed on. -/
def Lane.onFrame (l : Lane) (f : Frame) : Lane × Option StreamChunk :=
  if l.finishEmitted then (l, usageChunk f)
  else
    let fed := l.stripper.feed f.text
    let taken := fed.1.takeThinking
    let reasoning := pushReasoning l.accumulatedReasoning taken.2 ++ f.reasoningContent.getD []
    -- the rest that was held back comes in front of the frame's own text
    let ended := if f.finishReason.isSome then taken.1.finish reasoning else (taken.1, [], reasoning)
    let delta := ended.2.1 ++ fed.2
    let pending := f.toolCalls.foldl (fun pending d => addToolDelta d pending) l.pendingToolCalls
    let toolCalls := if f.finishReason.isSome then pending.map Prod.snd else []
    let l := { l with
      stripper := ended.1, accumulatedReasoning := ended.2.2, pendingToolCalls := pending }
    if delta = [] ∧ f.finishReason = none ∧ toolCalls = [] then (l, usageChunk f)
    else ({ l with finishEmitted := f.finishReason.isSome },
      some { delta := delta
             toolCalls := toolCalls
             finishReason := f.finishReason
             usage := if f.finishReason.isSome then f.usage else none
             reasoningContent :=
               if f.finishReason.isSome then reasoningField ended.2.2 else none })

/-- The final chunk that is made up when no frame has finished the reply. -/
def Lane.closing (l : Lane) : StreamChunk :=
  let ended := l.stripper.finish l.accumulatedReasoning
  { delta := ended.2.1
    toolCalls := l.pendingToolCalls.map Prod.snd
    finishReason :=
      some (if l.pendingToolCalls ≠ [] then "tool_calls".toList else "stop".toList)
    usage := none
    reasoningContent := reasoningField ended.2.2 }

/-- What the server sends: frames, data that is no JSON, the mark of the end, or a failure. -/
inductive Event where
  | frame (f : Frame)
  | unreadable
  | done
  | failed (e : FailoverError)

/-- What is sent for the events. The stream may end at any of them. -/
def Lane.run (l : Lane) : List Event → List (Except FailoverError StreamChunk)
  | [] => if l.finishEmitted then [] else [.ok l.closing]
  | .done :: _ => if l.finishEmitted then [] else [.ok l.closing]
  | .failed e :: _ => [.error e]
  | .unreadable :: events => l.run events
  | .frame f :: events => (l.onFrame f).2.toList.map .ok ++ (l.onFrame f).1.run events

def chatStream (events : List Event) : List (Except FailoverError StreamChunk) :=
  Lane.new.run events

structure LLMResponse where
  content : Text
  toolCalls : List ToolCall
  finishReason : Text
  usage : Option Json
  reasoningContent : Option Text

structure Collected where
  content : Text
  toolCalls : List ToolCall
  usage : Option Json
  reasoningContent : Option Text
  finishReason : Option Text

def Collected.add (a : Collected) (chunk : StreamChunk) : Collected where
  content := a.content ++ chunk.delta
  toolCalls := if chunk.toolCalls = [] then a.toolCalls else chunk.toolCalls
  usage := chunk.usage.or a.usage
  reasoningContent := chunk.reasoningContent.or a.reasoningContent
  finishReason := chunk.finishReason.or a.finishReason

def collectLoop (provider model : Text) (a : Collected) :
    List (Except FailoverError StreamChunk) → Except FailoverError LLMResponse
  | .ok chunk :: items => collectLoop provider model (a.add chunk) items
  | .error e :: _ =>
    if trim a.content = [] ∧ a.toolCalls = [] then .error e
    else .error (.streamInterrupted provider model e.text a.content (a.toolCalls ≠ []))
  | [] => match a.finishReason with
    | some finishReason =>
      .ok ⟨a.content, a.toolCalls, finishReason, a.usage, a.reasoningContent⟩
    | none =>
      if trim a.content = [] ∧ a.toolCalls = [] then .error (.timeout provider model)
      else .error (.streamInterrupted provider model
        "stream closed without finish_reason".toList a.content (a.toolCalls ≠ []))

def collectStreamResponse (provider model : Text)
    (items : List (Except FailoverError StreamChunk)) : Except FailoverError LLMResponse :=
  collectLoop provider model ⟨[], [], none, none, none⟩ items

end NemesisBot.Providers
