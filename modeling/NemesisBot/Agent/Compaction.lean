import NemesisBot.Lib.Runs
import NemesisBot.Agent.SendableHistory
import NemesisBot.Agent.SessionStore

/-! Compaction of one session: the summary of a prefix of the history, the messages that are sent
with it, and the turns that load, extend and save the session. -/
namespace NemesisBot.Compaction
open Agent Strings

/-- The text summarises the first messages of the history, the system prompt included. -/
structure SummaryCache where
  coversUpTo : Nat
  text : String
  deriving DecidableEq, Repr

structure Instance where
  history : List ConversationTurn
  summaryCache : Option SummaryCache
  deriving DecidableEq, Repr

def systemTurn (content timestamp : String) : ConversationTurn where
  role := "system"
  content := content
  toolCalls := []
  toolCallId := none
  timestamp := timestamp
  reasoningContent := none
  toolName := none
  toolResultProjection := none
  imageRefs := []

def isSystem (t : ConversationTurn) : Bool := t.role = "system"

/-! What the model sees of a tool result. -/

def maxToolResultInlineChars : Nat := 8192

def pruneHeadChars : Nat := 3600

def pruneTailChars : Nat := 3600

def pruneToolResult (result toolName : String) : Option String :=
  let chars := result.toList
  let total := chars.length
  if total ≤ maxToolResultInlineChars then none
  else
    let omitted := total - pruneHeadChars - pruneTailChars
    let head := String.ofList (chars.take pruneHeadChars)
    let tail := String.ofList (chars.drop (total - pruneTailChars))
    some (head ++ "\n[结果过长已截断：" ++ toolName ++ " 共 " ++ toString total ++
      " 字符，中间省略约 " ++ toString omitted ++
      " 字符。截断后内容不可从历史恢复；如需完整输出请缩小范围重试该工具" ++
      "（如指定更精确的路径/模式或 offset/limit）。]\n..." ++ tail)

def modelFacingContent (t : ConversationTurn) : String :=
  if t.role ≠ "tool" then t.content
  else match t.toolResultProjection with
    | some projection => projection
    | none => (pruneToolResult t.content (t.toolName.getD "tool")).getD t.content

def modelFacing (t : ConversationTurn) : ConversationTurn :=
  if t.role = "tool" then { t with content := modelFacingContent t } else t

/-! The messages of a request. -/

def summaryBlock (text : String) : String :=
  "\n\n## Summary of Previous Conversation\n\n" ++ text

def projectHistoryForRequest (now : String) (history : List ConversationTurn)
    (summary : Option (String × Nat)) : List ConversationTurn :=
  let turns := match summary with
    | some (text, coversUpTo) =>
      let tailStart := min (max (min coversUpTo history.length) 1) history.length
      let head := match history.head?.filter isSystem with
        | some prompt => { prompt with content := prompt.content ++ summaryBlock text }
        | none => systemTurn (summaryBlock text) now
      head :: history.drop tailStart
    | none => history
  repairToolMessagePairs (turns.map modelFacing)

def activeCache (inst : Instance) : Option SummaryCache :=
  inst.summaryCache.filter fun c => c.text ≠ "" ∧ 1 ≤ c.coversUpTo

def requestMessages (inst : Instance) (now : String) : List ConversationTurn :=
  projectHistoryForRequest now inst.history
    ((activeCache inst).map fun c => (c.text, c.coversUpTo))

/-! Loading and saving. -/

/-- The prompt that was there stays in front, unless the new history brings its own. -/
def Instance.setHistory (inst : Instance) (messages : List ConversationTurn) : Instance :=
  if messages.head?.any isSystem then { inst with history := messages }
  else { inst with history := (inst.history.head?.filter isSystem).toList ++ messages }

def Instance.new (systemPrompt : Option String) (now : String) : Instance :=
  ⟨(systemPrompt.map fun prompt => systemTurn prompt now).toList, none⟩

def Instance.withStored (systemPrompt : Option String) (now : String) (stored : StoredSession) :
    Instance :=
  if stored.messages = [] then Instance.new systemPrompt now
  else (Instance.new systemPrompt now).setHistory stored.messages

def getOrCreateInstance (systemPrompt : Option String) (now : String) (stored : StoredSession) :
    Instance :=
  let inst := Instance.withStored systemPrompt now stored
  if stored.summary = "" ∨ inst.history = [] then inst
  else
    let c := match stored.summaryCoversUpTo with
      | some c => min (max c 1) inst.history.length
      | none => max (inst.history.takeWhile isSystem).length 1
    { inst with summaryCache := some ⟨c, stored.summary⟩ }

/-- Summary first, so that the trim sees the covered messages of this history. -/
def persist (stored : StoredSession) (inst : Instance) (cacheChanged : Bool) : StoredSession :=
  let stored := match inst.summaryCache with
    | some cache =>
      if cacheChanged then
        { stored with summary := cache.text, summaryCoversUpTo := some cache.coversUpTo }
      else stored
    | none => stored
  stored.setHistory (inst.history.map storedMessage)

/-! The boundary of the next summary. -/

def estimateTokens (text : String) : Nat := text.length * 2 / 5

def projectedTokens (turns : List ConversationTurn) : Nat :=
  (turns.map fun t => estimateTokens (modelFacingContent t)).sum

def budgetBoundaryFrom (history : List ConversationTurn) (budget : Nat) : Nat → Nat → Nat
  | 0, _ => 0
  | start + 1, acc =>
    let t := projectedTokens ((history.drop start).take 1)
    if budget < acc + t ∧ start + 1 < history.length then start + 1
    else budgetBoundaryFrom history budget start (acc + t)

/-- The longest tail within the budget, and the last message in any case. -/
def tokenBudgetBoundary (history : List ConversationTurn) (budget : Nat) : Nat :=
  budgetBoundaryFrom history budget history.length 0

/-- Never between a call and its result. -/
def toolSafeBoundary (history : List ConversationTurn) : Nat → Nat
  | 0 => 0
  | c + 1 =>
    if history[c + 1]?.any (·.role = "tool") then toolSafeBoundary history c else c + 1

def kTarget : Nat := 6

def smallKForce : Nat := 2

def summarizerMaxMsgTokens (window : Nat) : Nat := window / 2

def summarizable (window : Nat) (t : ConversationTurn) : Bool :=
  (t.role = "user" ∨ t.role = "assistant") ∧
    estimateTokens t.content ≤ summarizerMaxMsgTokens window

def summarizeAdvanceWorthwhile (history : List ConversationTurn) (c newC window : Nat) : Bool :=
  let start := min (max c 1) history.length
  let stop := min newC history.length
  if stop ≤ start then false else ((history.take stop).drop start).any (summarizable window)

/-- `text` is what the summarising model makes of the prefix. -/
def summarizePrefixOwned (messages : List ConversationTurn) (window : Nat) (text : Option String) :
    Option String :=
  if messages.any (summarizable window) then text.filter (· ≠ "") else none

/-! The verdicts of a compaction policy. -/

inductive TriggerVerdict where
  | compact
  | skip
  | builtin
  deriving DecidableEq

inductive ExecVerdict where
  | summary (text : String)
  | skip
  | builtin
  deriving DecidableEq

def compactSummaryMaxChars : Nat := 32000

def truncateChars (s : String) (maxChars : Nat) : String :=
  if s.toList.length ≤ maxChars then s else String.ofList (s.toList.take maxChars) ++ "…"

/-- The bridge to the policy takes no empty summary. -/
def generateSummary (guest : ExecVerdict) : ExecVerdict :=
  match guest with
  | .summary text =>
    if trim text.toList = [] then .builtin
    else .summary (truncateChars text compactSummaryMaxChars)
  | verdict => verdict

/-! The compaction at the end of a turn. -/

structure CompactState where
  lastSummaryTokens : Nat
  consecutiveFailures : Nat
  stuck : Bool
  lastProviderPromptTokens : Option Nat
  noProgress : Nat
  deriving DecidableEq, Repr

def CompactState.default : CompactState := ⟨0, 0, false, none, 0⟩

def compactStuckLimit : Nat := 2

def compactStuckPlateauRatio : Nat := 90

def compactNoProgressRatio : Nat := 5

def compactNoProgressLimit : Nat := 2

/-- The settings, the policy's verdicts, the summarising model's text, and what other sessions do
to the shared maps. -/
structure UpdateIo where
  window : Nat
  trigger : Nat
  keepRecentTokens : Nat
  shouldCompact : TriggerVerdict
  guest : ExecVerdict
  text : Option String
  crowded : Bool
  summarizing : Bool

def summarizeWasIneffective (lastSummaryTokens currentTokens : Nat) : Bool :=
  0 < lastSummaryTokens ∧ lastSummaryTokens * compactStuckPlateauRatio / 100 ≤ currentTokens

/-- The self-check before a summary: too many without effect pause the compaction. -/
def CompactState.check (st : CompactState) (will : Bool) (signal threshold : Nat) : CompactState :=
  if will then
    let failures :=
      if summarizeWasIneffective st.lastSummaryTokens signal then st.consecutiveFailures + 1 else 0
    if compactStuckLimit ≤ failures then
      { st with consecutiveFailures := failures, stuck := true }
    else { st with consecutiveFailures := failures, lastSummaryTokens := signal }
  else if signal < threshold then
    { st with consecutiveFailures := 0, stuck := false, noProgress := 0 }
  else st

def CompactState.withoutProgress (st : CompactState) : CompactState :=
  { st with
    noProgress := st.noProgress + 1
    stuck := st.stuck || compactNoProgressLimit ≤ st.noProgress + 1 }

def coveredUpTo (inst : Instance) : Nat :=
  min ((inst.summaryCache.map (·.coversUpTo)).getD 0) inst.history.length

def existingSummary (inst : Instance) : String := (inst.summaryCache.map (·.text)).getD ""

def newBoundary (history : List ConversationTurn) (keepRecentTokens : Nat) : Nat :=
  toolSafeBoundary history <|
    if 0 < keepRecentTokens then tokenBudgetBoundary history keepRecentTokens
    else history.length - kTarget

def willSummarize (inst : Instance) (io : UpdateIo) (signal : Nat) : Bool :=
  let c := coveredUpTo inst
  let newC := newBoundary inst.history io.keepRecentTokens
  let will := match io.shouldCompact with
    | .compact => true
    | .skip => false
    | .builtin => io.trigger ≤ signal ∧ c < newC
  will && summarizeAdvanceWorthwhile inst.history c newC io.window

def newSummary (inst : Instance) (io : UpdateIo) : Option String :=
  match generateSummary io.guest with
  | .summary text => some text
  | .skip => none
  | .builtin =>
    summarizePrefixOwned (inst.history.take (newBoundary inst.history io.keepRecentTokens))
      io.window io.text

def maybeUpdateSummary (inst : Instance) (st : CompactState) (io : UpdateIo) :
    Instance × CompactState :=
  let newC := newBoundary inst.history io.keepRecentTokens
  let tailTokens := projectedTokens (inst.history.drop (coveredUpTo inst))
  let signal := max tailTokens (st.lastProviderPromptTokens.getD 0)
  let will := willSummarize inst io signal
  let st := (if io.crowded then CompactState.default else st).check will signal io.trigger
  if st.stuck || !will || io.summarizing then (inst, st)
  else match newSummary inst io with
    | none => (inst, st)
    | some text =>
      let estBefore := estimateTokens (existingSummary inst) + tailTokens
      let projected := estimateTokens text + projectedTokens (inst.history.drop newC)
      if estBefore - projected < estBefore * compactNoProgressRatio / 100 then
        (inst, st.withoutProgress)
      else
        ({ inst with summaryCache := some ⟨newC, text⟩ },
          { st with noProgress := 0, lastProviderPromptTokens := none })

/-! Forced compaction; the flag says whether a summary was asked for. -/

def forcedBoundary (inst : Instance) : Nat :=
  let tail := inst.history.length - coveredUpTo inst
  toolSafeBoundary inst.history <|
    if smallKForce < tail then inst.history.length - smallKForce else inst.history.length

def forceCompressionOpts (inst : Instance) (st : CompactState) (window : Nat)
    (text : Option String) : Instance × CompactState × Bool :=
  let newC := forcedBoundary inst
  if newC ≤ coveredUpTo inst ∨ newC = 0 then (inst, st, false)
  else match summarizePrefixOwned (inst.history.take newC) window text with
    | some text =>
      ({ inst with summaryCache := some ⟨newC, text⟩ },
        { st with lastProviderPromptTokens := none }, true)
    | none => (inst, st, true)

end NemesisBot.Compaction
