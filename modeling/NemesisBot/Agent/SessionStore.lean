import NemesisBot.Agent.Types
import NemesisBot.Lib.Json

/-! Chat-log rows and the stored sessions that are derived from them. -/
namespace NemesisBot.Agent
open Strings

/-- A stored message has the fields of a turn. -/
abbrev StoredMessage := ConversationTurn

/-- What the store keeps of a turn. -/
def storedMessage (turn : ConversationTurn) : StoredMessage := { turn with reasoningContent := none }

structure StoredSession where
  messages : List StoredMessage
  summary : String
  summaryCoversUpTo : Option Nat
  projectId : Option Text
  projectPath : Option Text
  deriving DecidableEq, Repr

def StoredSession.empty : StoredSession := ⟨[], "", none, none, none⟩

def maxStoredMessages : Nat := 1000

/-- Drops the oldest messages over the limit, but only covered ones. -/
def trimToLimit (s : StoredSession) : StoredSession :=
  if s.messages.length ≤ maxStoredMessages then s
  else
    let overflow := s.messages.length - maxStoredMessages
    let c := s.summaryCoversUpTo.getD 0
    let dropN := min overflow c
    if dropN = 0 then s
    else { s with messages := s.messages.drop dropN, summaryCoversUpTo := some (c - dropN) }

def StoredSession.setHistory (s : StoredSession) (messages : List StoredMessage) : StoredSession :=
  trimToLimit { s with messages := messages }

/-- Nothing is covered, so nothing is dropped. -/
theorem setHistory_of_not_covered {s : StoredSession} (h : s.summaryCoversUpTo = none)
    (messages : List StoredMessage) : s.setHistory messages = { s with messages := messages } := by
  simp [StoredSession.setHistory, trimToLimit, h]

/-! The rows of a chat log. -/

def fieldStr (key : String) (row : Json) : Option Text := (row.get key.toList).bind Json.asStr

def isUserTurnBoundary (row : Json) : Bool :=
  fieldStr "role" row = some "user".toList ∧
    (row.get "steer".toList).bind (fun v => match v with | .bool b => some b | _ => none) ≠ some true

def isProjectedChatRow (role content : Text) : Bool :=
  if role = "user".toList then true
  else if role = "assistant".toList then trim content ≠ []
  else false

def projectedMessage (row : Json) : Option StoredMessage :=
  let role := (fieldStr "role" row).getD []
  let content := (fieldStr "content" row).getD []
  if isProjectedChatRow role content then
    some {
      role := String.ofList role
      content := String.ofList content
      toolCalls := []
      toolCallId := none
      timestamp := String.ofList ((fieldStr "timestamp" row).getD [])
      reasoningContent := none
      toolName := none
      toolResultProjection := none
      imageRefs := (((row.get "images".toList).bind Json.asArray).map fun items =>
        (items.filterMap Json.asStr).map String.ofList).getD [] }
  else none

def projectedMessagesFromRows (rows : List Json) : List StoredMessage :=
  rows.filterMap projectedMessage

/-- A line of a chat log file: a JSON value, text that is none, or bytes that are no text. -/
inductive Line where
  | row (v : Json)
  | unparsable
  | unreadable

def Line.readable : Line → Bool
  | .unreadable => false
  | _ => true

/-- The row of a line, unless it is an old boundary event. -/
def Line.message : Line → Option Json
  | .row v => if fieldStr "role" v = some "boundary".toList then none else some v
  | _ => none

/-- The rows among the newest `limit` lines (all of them without a limit), and the number of
lines. -/
def readChatLog (lines : List Line) (limit : Option Nat) : List Json × Nat :=
  let readable := lines.takeWhile Line.readable
  let total := if readable.length < lines.length then readable.length + 1 else readable.length
  let window := match limit with
    | some limit => readable.drop (readable.length - limit)
    | none => readable
  (window.filterMap Line.message, total)

def rowUserTurnCount (rows : List Json) : Nat := (rows.filter isUserTurnBoundary).length

/-- The position of the boundary row after turn `n`, with the turns seen so far. -/
def rowTurnCutFrom (n seen : Nat) : List Json → Nat
  | [] => 0
  | row :: rest =>
    let seen := if isUserTurnBoundary row then seen + 1 else seen
    if isUserTurnBoundary row ∧ n < seen then 0 else rowTurnCutFrom n seen rest + 1

def rowTurnCut (rows : List Json) (n : Nat) : Nat := rowTurnCutFrom n 0 rows

/-- `kept` are the rows of the first `n` turns. -/
structure IsFirstTurns (n : Nat) (rows kept : List Json) : Prop where
  turns : rowUserTurnCount kept = min n (rowUserTurnCount rows)
  front : ∃ rest, rows = kept ++ rest ∧ ∀ row ∈ rest.head?, isUserTurnBoundary row = true

theorem rowUserTurnCount_cons (row : Json) (rows : List Json) :
    rowUserTurnCount (row :: rows) =
      (if isUserTurnBoundary row then 1 else 0) + rowUserTurnCount rows := by
  unfold rowUserTurnCount
  cases h : isUserTurnBoundary row
  · simp [h]
  · simp [h, Nat.add_comm]

theorem isFirstTurns_cut (n seen : Nat) (rows : List Json) (h : seen ≤ n) :
    IsFirstTurns (n - seen) rows (rows.take (rowTurnCutFrom n seen rows)) := by
  induction rows generalizing seen with
  | nil => exact ⟨by simp [rowUserTurnCount], [], by simp [rowTurnCutFrom], by simp⟩
  | cons row rest ih =>
    unfold rowTurnCutFrom
    by_cases hb : isUserTurnBoundary row = true
    · by_cases hn : n < seen + 1
      · have hz : n - seen = 0 := by omega
        rw [hz]
        simp only [hb, if_true, hn, and_self, List.take_zero]
        exact ⟨by simp [rowUserTurnCount], row :: rest, rfl, by simpa using hb⟩
      · obtain ⟨ht, tail, hs, hhead⟩ := ih (seen + 1) (by omega)
        simp only [hb, if_true, hn, and_false, if_false, List.take_succ_cons]
        refine ⟨?_, tail, by rw [List.cons_append, ← hs], hhead⟩
        rw [rowUserTurnCount_cons, rowUserTurnCount_cons, ht, if_pos hb]
        omega
    · obtain ⟨ht, tail, hs, hhead⟩ := ih seen h
      simp only [hb, if_false, false_and, List.take_succ_cons, Bool.false_eq_true]
      refine ⟨?_, tail, by rw [List.cons_append, ← hs], hhead⟩
      rw [rowUserTurnCount_cons, rowUserTurnCount_cons, ht, if_neg hb]
      omega

theorem isFirstTurns_rowTurnCut (rows : List Json) (n : Nat) :
    IsFirstTurns n rows (rows.take (rowTurnCut rows n)) := by
  simpa [rowTurnCut] using isFirstTurns_cut n 0 rows (Nat.zero_le n)

end NemesisBot.Agent
