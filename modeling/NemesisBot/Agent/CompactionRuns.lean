import NemesisBot.Agent.Compaction

/-! Turns, compactions and reloads of one session, with the conversation that they belong to. -/
namespace NemesisBot.Compaction
open Agent Strings Runs

/-- The instance of a running turn, and the summary it was loaded with. -/
structure Turn where
  inst : Instance
  summaryAtLoad : Option SummaryCache
  deriving DecidableEq

/-- The store and the running turn. Beside them stand all messages of the conversation as the store
keeps them, the number of those that were trimmed, and those that the summary was made from. -/
structure State where
  stored : StoredSession
  turn : Option Turn
  compact : CompactState
  conversation : List ConversationTurn
  trimmed : Nat
  summarised : Finset Nat

def start : State := ⟨.empty, none, .default, [], 0, ∅⟩

/-- The number of conversation messages, without system prompts. -/
def conversationCount (ms : List ConversationTurn) : Nat := (ms.filter (!isSystem ·)).length

/-- A new summary is made from the old one and the prefix it covers. -/
def summarisedAfter (s : State) (old new : Instance) : Finset Nat :=
  if new.summaryCache = old.summaryCache then s.summarised
  else match new.summaryCache with
    | some c =>
      (if existingSummary old = "" then ∅ else s.summarised) ∪
        Finset.Ico s.trimmed
          (s.trimmed + conversationCount (old.history.take c.coversUpTo))
    | none => ∅

def State.withInstance (s : State) (turn : Turn) (inst : Instance) (compact : CompactState) :
    State :=
  { s with
    turn := some { turn with inst := inst }
    compact := compact
    summarised := summarisedAfter s turn.inst inst }

def State.load (s : State) (systemPrompt : Option String) (now : String) : Turn :=
  let inst := getOrCreateInstance systemPrompt now s.stored
  ⟨inst, inst.summaryCache⟩

/-- The turn is over; what the store dropped of its history has been trimmed. -/
def State.saved (s : State) (inst : Instance) (cacheChanged : Bool) : State :=
  let stored := persist s.stored inst cacheChanged
  let dropped := inst.history.take (inst.history.length - stored.messages.length)
  { s with
    stored := stored
    turn := none
    conversation := s.conversation.map storedMessage
    trimmed := s.trimmed + conversationCount dropped }

inductive CompactReply where
  | empty
  | compacted (covers kept : Nat)
  | nothingToDo
  | failed
  deriving DecidableEq, Repr

/-- A manual compaction loads the session, forces a summary and saves it. -/
def compactSession (s : State) (systemPrompt : Option String) (now : String) (window : Nat)
    (text : Option String) : State × CompactReply :=
  let turn := s.load systemPrompt now
  if turn.inst.history = [] then (s, .empty)
  else
    let before := (turn.inst.summaryCache.map (·.coversUpTo)).getD 0
    let r := forceCompressionOpts turn.inst s.compact window text
    match r.1.summaryCache.filter fun c => before < c.coversUpTo ∧ c.text ≠ "" with
    | some c =>
      ((s.withInstance turn r.1 r.2.1).saved r.1 true,
        .compacted c.coversUpTo (turn.inst.history.length - c.coversUpTo))
    | none => ({ s with compact := r.2.1 }, if r.2.2 then .failed else .nothingToDo)

/-- What a turn adds at once: a message of the user or the model, with the results of its calls. -/
def isRound (head : ConversationTurn) (results : List ConversationTurn) : Bool :=
  (head.role = "user" ∨ head.role = "assistant") ∧
    ∀ t ∈ results, t.role = "tool" ∧ ∃ id ∈ callsOf head, t.toolCallId = some id

def State.appended (s : State) (turn : Turn) (ms : List ConversationTurn) : State :=
  { s with
    turn := some { turn with inst := { turn.inst with history := turn.inst.history ++ ms } }
    conversation := s.conversation ++ ms }

inductive Label where
  | load (systemPrompt : Option String) (now : String)
  | append (head : ConversationTurn) (results : List ConversationTurn)
  | update (io : UpdateIo)
  | force (window : Nat) (text : Option String)
  | save
  | compactSession (systemPrompt : Option String) (now : String) (window : Nat)
      (text : Option String)
  | usage (tokens : Nat)

def step (s : State) (l : Label) : Option State :=
  match l, s.turn with
  | .load systemPrompt now, none => some { s with turn := some (s.load systemPrompt now) }
  | .append head results, some turn =>
    if isRound head results then some (s.appended turn (head :: results)) else none
  | .update io, some turn =>
    let r := maybeUpdateSummary turn.inst s.compact io
    some (s.withInstance turn r.1 r.2)
  | .force window text, some turn =>
    let r := forceCompressionOpts turn.inst s.compact window text
    some (s.withInstance turn r.1 r.2.1)
  | .save, some turn =>
    some (s.saved turn.inst (turn.inst.summaryCache ≠ turn.summaryAtLoad))
  | .compactSession systemPrompt now window text, none =>
    some (compactSession s systemPrompt now window text).1
  | .usage tokens, _ =>
    some { s with compact := { s.compact with lastProviderPromptTokens := some tokens } }
  | _, _ => none

/-! What a request must hold. -/

/-- The system prompt and the summary, merged into one message where both are there. -/
def opening (prompt : Option ConversationTurn) (summary : Option String) (now : String) :
    List ConversationTurn :=
  match prompt, summary with
  | some prompt, some text => [{ prompt with content := prompt.content ++ summaryBlock text }]
  | none, some text => [systemTurn (summaryBlock text) now]
  | some prompt, none => [prompt]
  | none, none => []

def openingOf (inst : Instance) (now : String) : List ConversationTurn :=
  opening (inst.history.head?.filter isSystem) ((activeCache inst).map (·.text)) now

/-- Every tool message follows its call, and every call has its result behind it. -/
def PairedFrom (seen : List String) : List ConversationTurn → Prop
  | [] => True
  | m :: rest =>
    Follows seen m ∧ (∀ id ∈ callsOf m, id ∈ answers rest) ∧ PairedFrom (seen ++ callsOf m) rest

/-- The calls and results are in order, so that a request needs no repair. -/
def Paired (ms : List ConversationTurn) : Prop := (answers ms).Nodup ∧ PairedFrom [] ms

/-- The messages that the summary in use was made from. -/
def summarisedIn (s : State) (inst : Instance) : Finset Nat :=
  if (activeCache inst).isSome then s.summarised else ∅

/-- The request is the opening and the conversation from message `k` on, up to the repair of its
tool messages; the messages before `k` are the summarised ones. -/
structure Projects (s : State) (inst : Instance) (k : Nat) : Prop where
  covers : ∀ i, s.trimmed ≤ i → i < s.conversation.length → (i ∈ summarisedIn s inst ↔ i < k)
  starts : ∀ t ∈ (s.conversation.drop k).head?, t.role ≠ "tool"
  sent : ∀ now, requestMessages inst now =
    repairToolMessagePairs ((openingOf inst now ++ s.conversation.drop k).map modelFacing)
  others : ∀ now, nonTool (requestMessages inst now) =
    openingOf inst now ++ nonTool (s.conversation.drop k)
  paired : Paired (s.conversation.drop k) → ∀ now,
    requestMessages inst now = openingOf inst now ++ (s.conversation.drop k).map modelFacing

def Covered (s : State) : Prop := ∀ turn, s.turn = some turn → ∃ k, Projects s turn.inst k

/-- The load leaves the index of the summary valid: the stored messages begin with a prompt, or one
is put in front of them and no covered message is left, or there is none and one is left. -/
def loadKeepsIndex (stored : StoredSession) (systemPrompt : Option String) : Bool :=
  stored.summary = "" || stored.messages.head?.any isSystem ||
    (systemPrompt.isSome == (stored.summaryCoversUpTo.getD 0 = 0))

def keepsIndex (s : State) : Label → Bool
  | .load systemPrompt _ => loadKeepsIndex s.stored systemPrompt
  | .compactSession systemPrompt _ _ _ => loadKeepsIndex s.stored systemPrompt
  | _ => true

end NemesisBot.Compaction
