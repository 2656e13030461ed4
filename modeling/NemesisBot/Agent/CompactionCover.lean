import NemesisBot.Agent.CompactionRuns

/-! Every message of the conversation is summarised, sent or trimmed, as long as no load shifts the
index of the summary. -/
namespace NemesisBot.Compaction
open Agent Strings Runs

/-! The repair of a request. -/

theorem dropOrphans_of_pairedFrom {seen : List String} {ms : List ConversationTurn}
    (h : PairedFrom seen ms) : dropOrphans seen ms = ms := by
  induction ms generalizing seen with
  | nil => rfl
  | cons m rest ih => rw [(dropOrphans_cons seen m rest).1 h.1, ih h.2.2]

theorem fill_of_pairedFrom {seen : List String} {ms : List ConversationTurn}
    (h : PairedFrom seen ms) : fill ms = ms := by
  induction ms generalizing seen with
  | nil => rfl
  | cons m rest ih => rw [fill, missing_eq_nil h.2.1, ih h.2.2, List.nil_append]

theorem repair_of_paired {ms : List ConversationTurn} (h : Paired ms) :
    repairToolMessagePairs ms = ms := by
  rw [repairToolMessagePairs_eq, keepLast_of_nodup h.1, dropOrphans_of_pairedFrom h.2,
    fill_of_pairedFrom h.2]

theorem nonTool_repair (ms : List ConversationTurn) :
    nonTool (repairToolMessagePairs ms) = nonTool ms := by
  rw [repairToolMessagePairs_eq, nonTool_fill, nonTool_dropOrphans, nonTool_keepLast]

@[simp] theorem modelFacing_role (t : ConversationTurn) : (modelFacing t).role = t.role := by
  unfold modelFacing
  split <;> rfl

theorem modelFacing_of_role {t : ConversationTurn} (h : t.role ≠ "tool") : modelFacing t = t :=
  if_neg h

@[simp] theorem callsOf_modelFacing (t : ConversationTurn) :
    callsOf (modelFacing t) = callsOf t := by
  by_cases h : t.role = "tool"
  · rw [callsOf_of_tool h, callsOf_of_tool ((modelFacing_role t).trans h)]
  · rw [modelFacing_of_role h]

@[simp] theorem toolCallId_modelFacing (t : ConversationTurn) :
    (modelFacing t).toolCallId = t.toolCallId := by
  unfold modelFacing
  split <;> rfl

@[simp] theorem answerOf_modelFacing (t : ConversationTurn) :
    answerOf (modelFacing t) = answerOf t := by
  simp [answerOf]

@[simp] theorem answers_map_modelFacing (ms : List ConversationTurn) :
    answers (ms.map modelFacing) = answers ms := by
  simp [answers, List.filterMap_map]

theorem nonTool_map_modelFacing (ms : List ConversationTurn) :
    nonTool (ms.map modelFacing) = nonTool ms := by
  induction ms with
  | nil => rfl
  | cons m rest ih =>
    by_cases h : m.role = "tool"
    · simpa [nonTool, h] using ih
    · simpa [nonTool, h, modelFacing_of_role h] using ih

theorem PairedFrom.map_modelFacing {seen : List String} {ms : List ConversationTurn}
    (h : PairedFrom seen ms) : PairedFrom seen (ms.map modelFacing) := by
  induction ms generalizing seen with
  | nil => trivial
  | cons m rest ih =>
    obtain ⟨hfollows, hanswered, hrest⟩ := h
    refine ⟨by simpa [Follows] using hfollows, by simpa using hanswered, ?_⟩
    simpa using ih hrest

theorem Paired.map_modelFacing {ms : List ConversationTurn} (h : Paired ms) :
    Paired (ms.map modelFacing) :=
  ⟨by simpa using h.1, h.2.map_modelFacing⟩

/-- A system message in front changes no pair. -/
theorem Paired.cons {m : ConversationTurn} {ms : List ConversationTurn} (hm : m.role = "system")
    (h : Paired ms) : Paired (m :: ms) := by
  have hc : callsOf m = [] := by simp [callsOf, hm]
  have ha : answerOf m = none := by simp [answerOf, hm]
  refine ⟨by simpa [answers_cons, ha] using h.1, ?_, by simp [hc], by simpa [hc] using h.2⟩
  intro ht
  simp [hm] at ht

theorem opening_role {prompt : Option ConversationTurn} {summary : Option String} {now : String}
    (hprompt : ∀ p ∈ prompt, p.role = "system") :
    ∀ t ∈ opening prompt summary now, t.role = "system" := by
  cases prompt with
  | none => cases summary <;> simp [opening, systemTurn]
  | some p =>
    have hp := hprompt p rfl
    cases summary <;> simp [opening, hp]

theorem openingOf_role (inst : Instance) (now : String) :
    ∀ t ∈ openingOf inst now, t.role = "system" := by
  apply opening_role
  intro p hp
  simpa [isSystem] using (Option.filter_eq_some_iff.mp hp).2

/-- The repair leaves an opening and the plain messages behind it, and all of them where the tool
messages are in order. -/
theorem repair_opening {os ms : List ConversationTurn} (hos : ∀ t ∈ os, t.role = "system") :
    nonTool (repairToolMessagePairs ((os ++ ms).map modelFacing)) = os ++ nonTool ms ∧
      (Paired ms →
        repairToolMessagePairs ((os ++ ms).map modelFacing) = os ++ ms.map modelFacing) := by
  have hne : ∀ t ∈ os, t.role ≠ "tool" := by
    intro t ht h
    simp [hos t ht] at h
  have hmap : os.map modelFacing = os := by
    rw [List.map_congr_left fun t ht => modelFacing_of_role (hne t ht), List.map_id']
  have hnon : nonTool os = os := List.filter_eq_self.mpr fun t ht => by simpa using hne t ht
  constructor
  · rw [nonTool_repair, nonTool_map_modelFacing, nonTool_append, hnon]
  · intro h
    rw [List.map_append, hmap]
    apply repair_of_paired
    clear hmap hnon hne
    induction os with
    | nil => exact h.map_modelFacing
    | cons o os ih =>
      exact (ih fun t ht => hos t (List.mem_cons_of_mem o ht)).cons (hos o List.mem_cons_self)

/-! The boundary of a new summary. -/

theorem toolSafeBoundary_le (history : List ConversationTurn) (c : Nat) :
    toolSafeBoundary history c ≤ c := by
  induction c with
  | zero => exact le_rfl
  | succ c ih =>
    rw [toolSafeBoundary]
    split
    · omega
    · exact le_rfl

theorem toolSafeBoundary_safe {history : List ConversationTurn} {c : Nat}
    (h : toolSafeBoundary history c ≠ 0) :
    ∀ t ∈ history[toolSafeBoundary history c]?, t.role ≠ "tool" := by
  induction c with
  | zero => exact absurd rfl h
  | succ c ih =>
    by_cases hsafe : history[c + 1]?.any (·.role = "tool") = true
    · rw [toolSafeBoundary, if_pos hsafe] at h ⊢
      exact ih h
    · rw [toolSafeBoundary, if_neg hsafe]
      intro t ht htool
      apply hsafe
      rw [Option.mem_def.mp ht]
      simpa using htool

theorem budgetBoundaryFrom_le (history : List ConversationTurn) (budget start acc : Nat) :
    budgetBoundaryFrom history budget start acc ≤ start := by
  induction start generalizing acc with
  | zero => exact le_rfl
  | succ start ih =>
    simp only [budgetBoundaryFrom]
    split
    · exact le_rfl
    · exact (ih _).trans (Nat.le_succ start)

theorem newBoundary_le (history : List ConversationTurn) (keep : Nat) :
    newBoundary history keep ≤ history.length := by
  refine (toolSafeBoundary_le history _).trans ?_
  split
  · exact budgetBoundaryFrom_le history keep history.length 0
  · omega

theorem forcedBoundary_le (inst : Instance) : forcedBoundary inst ≤ inst.history.length := by
  refine (toolSafeBoundary_le inst.history _).trans ?_
  split <;> omega

/-- A compaction leaves the instance, or its summary moves forward to a safe boundary. -/
inductive Advances (old : Instance) : Instance → Prop where
  | kept : Advances old old
  | moved (c : Nat) (text : String) (htext : text ≠ "") (hlt : coveredUpTo old < c)
      (hle : c ≤ old.history.length) (hsafe : ∀ t ∈ old.history[c]?, t.role ≠ "tool") :
      Advances old { old with summaryCache := some ⟨c, text⟩ }

theorem summarizePrefixOwned_ne {messages : List ConversationTurn} {window : Nat}
    {text : Option String} {summary : String}
    (h : summarizePrefixOwned messages window text = some summary) : summary ≠ "" := by
  unfold summarizePrefixOwned at h
  split at h
  · simpa using (Option.filter_eq_some_iff.mp h).2
  · cases h

theorem truncateChars_ne {s : String} (h : s ≠ "") : truncateChars s compactSummaryMaxChars ≠ "" := by
  unfold truncateChars
  split
  · exact h
  · intro he
    have := congrArg String.length he
    simp at this

theorem newSummary_ne {inst : Instance} {io : UpdateIo} {summary : String}
    (h : newSummary inst io = some summary) : summary ≠ "" := by
  unfold newSummary at h
  cases hg : io.guest with
  | summary text =>
    by_cases ht : trim text.toList = []
    · rw [hg, generateSummary, if_pos ht] at h
      exact summarizePrefixOwned_ne h
    · rw [hg, generateSummary, if_neg ht] at h
      obtain rfl := Option.some.inj h
      apply truncateChars_ne
      rintro rfl
      exact ht rfl
  | skip =>
    rw [hg] at h
    cases h
  | builtin =>
    rw [hg] at h
    exact summarizePrefixOwned_ne h

theorem lt_of_willSummarize {inst : Instance} {io : UpdateIo} {signal : Nat}
    (h : willSummarize inst io signal = true) :
    coveredUpTo inst < newBoundary inst.history io.keepRecentTokens := by
  have hworth := (Bool.and_eq_true_iff.mp h).2
  simp only [summarizeAdvanceWorthwhile] at hworth
  split at hworth
  · cases hworth
  · have : coveredUpTo inst ≤ inst.history.length := min_le_right _ _
    omega

theorem maybeUpdateSummary_advances (inst : Instance) (st : CompactState) (io : UpdateIo) :
    Advances inst (maybeUpdateSummary inst st io).1 := by
  unfold maybeUpdateSummary
  extract_lets newC tailTokens signal will st
  split
  · exact .kept
  · rename_i hgate
    have hwill : will = true := by
      cases hw : will with
      | true => rfl
      | false => simp [hw] at hgate
    have hlt : coveredUpTo inst < newC := lt_of_willSummarize hwill
    split
    · exact .kept
    · rename_i text htext
      extract_lets projected
      split
      · exact .kept
      · exact .moved _ text (newSummary_ne htext) hlt (newBoundary_le _ _)
          (toolSafeBoundary_safe (Nat.ne_of_gt (Nat.zero_lt_of_lt hlt)))

theorem forceCompressionOpts_advances (inst : Instance) (st : CompactState) (window : Nat)
    (text : Option String) : Advances inst (forceCompressionOpts inst st window text).1 := by
  simp only [forceCompressionOpts]
  split
  · exact .kept
  · rename_i hgate
    obtain ⟨hlt, hpos⟩ := not_or.mp hgate
    split
    · rename_i summary hsummary
      exact .moved _ summary (summarizePrefixOwned_ne hsummary) (not_le.mp hlt)
        (forcedBoundary_le inst) (toolSafeBoundary_safe hpos)
    · exact .kept

/-! The history of a session shows the conversation from the first message that is left. -/

/-- A history is a prompt, if there is one, and the conversation without what was trimmed. -/
structure Layout (history conversation : List ConversationTurn) (trimmed : Nat)
    (prompt : Option ConversationTurn) : Prop where
  shows : history = prompt.toList ++ conversation.drop trimmed
  prompt : ∀ p ∈ prompt, isSystem p = true

/-- The summary was made from the messages before `n`, where a request can start. -/
structure Boundary (conversation : List ConversationTurn) (trimmed : Nat)
    (summarised : Finset Nat) (n : Nat) : Prop where
  lower : trimmed ≤ n
  upper : n ≤ conversation.length
  covers : ∀ i, trimmed ≤ i → (i ∈ summarised ↔ i < n)
  starts : ∀ t ∈ conversation[n]?, t.role ≠ "tool"

/-- A conversation holds no system prompt, and begins with no tool message. -/
structure WellFormed (conversation : List ConversationTurn) (trimmed : Nat) : Prop where
  plain : ∀ t ∈ conversation, isSystem t = false
  starts : ∀ t ∈ conversation[0]?, t.role ≠ "tool"
  trimmed : trimmed ≤ conversation.length

theorem length_toList_le {α : Type*} (o : Option α) : o.toList.length ≤ 1 := by
  cases o <;> simp

theorem Layout.drop {history conversation : List ConversationTurn} {trimmed : Nat}
    {prompt : Option ConversationTurn} (h : Layout history conversation trimmed prompt) {c : Nat}
    (hc : 1 ≤ c) : history.drop c = conversation.drop (trimmed + (c - prompt.toList.length)) := by
  have hlen := length_toList_le prompt
  rw [h.shows, List.drop_append, List.drop_eq_nil_of_le (by omega), List.nil_append,
    List.drop_drop]

theorem Layout.take {history conversation : List ConversationTurn} {trimmed : Nat}
    {prompt : Option ConversationTurn} (h : Layout history conversation trimmed prompt) {c : Nat}
    (hc : 1 ≤ c) : history.take c =
      prompt.toList ++ (conversation.drop trimmed).take (c - prompt.toList.length) := by
  have hlen := length_toList_le prompt
  rw [h.shows, List.take_append, List.take_of_length_le (by omega)]

theorem Layout.length {history conversation : List ConversationTurn} {trimmed : Nat}
    {prompt : Option ConversationTurn} (h : Layout history conversation trimmed prompt) :
    history.length = prompt.toList.length + (conversation.length - trimmed) := by
  rw [h.shows, List.length_append, List.length_drop]

theorem Layout.head {history conversation : List ConversationTurn} {trimmed : Nat}
    {prompt : Option ConversationTurn} (h : Layout history conversation trimmed prompt)
    (hplain : ∀ t ∈ conversation, isSystem t = false) :
    history.head?.filter isSystem = prompt := by
  cases hp : prompt with
  | some p => simp [h.shows, hp, h.prompt p hp]
  | none =>
    rw [h.shows, hp]
    cases hd : conversation.drop trimmed with
    | nil => rfl
    | cons m rest =>
      have hm : m ∈ conversation := List.mem_of_mem_drop (hd ▸ List.mem_cons_self)
      simp [hplain m hm]

/-- The prompt does not count. -/
theorem Layout.count {history conversation : List ConversationTurn} {trimmed : Nat}
    {prompt : Option ConversationTurn} (h : Layout history conversation trimmed prompt)
    (hplain : ∀ t ∈ conversation, isSystem t = false) {c : Nat} (hc : 1 ≤ c)
    (hle : c ≤ history.length) :
    conversationCount (history.take c) = c - prompt.toList.length := by
  have hprompt : prompt.toList.filter (!isSystem ·) = [] := by
    rw [List.filter_eq_nil_iff]
    intro p hp
    simp [h.prompt p (by simpa using hp)]
  have hrest : ((conversation.drop trimmed).take (c - prompt.toList.length)).filter
      (!isSystem ·) = (conversation.drop trimmed).take (c - prompt.toList.length) := by
    rw [List.filter_eq_self]
    intro t ht
    simp [hplain t (List.mem_of_mem_drop (List.mem_of_mem_take ht))]
  rw [conversationCount, h.take hc, List.filter_append, hprompt, hrest, List.nil_append,
    List.length_take, List.length_drop]
  have hlen := h.length
  omega

theorem isSystem_storedMessage (t : ConversationTurn) :
    isSystem (storedMessage t) = isSystem t := rfl

theorem Layout.stored {history conversation : List ConversationTurn} {trimmed : Nat}
    {prompt : Option ConversationTurn} (h : Layout history conversation trimmed prompt) :
    Layout (history.map storedMessage) (conversation.map storedMessage) trimmed
      (prompt.map storedMessage) := by
  constructor
  · cases prompt <;> simp [h.shows, List.map_drop]
  · intro p hp
    obtain ⟨q, hq, rfl⟩ := Option.map_eq_some_iff.mp hp
    exact h.prompt q hq

theorem Boundary.stored {conversation : List ConversationTurn} {trimmed n : Nat}
    {summarised : Finset Nat} (h : Boundary conversation trimmed summarised n) :
    Boundary (conversation.map storedMessage) trimmed summarised n := by
  refine ⟨h.lower, by simpa using h.upper, h.covers, ?_⟩
  intro t ht
  rw [List.getElem?_map] at ht
  obtain ⟨u, hu, rfl⟩ := Option.map_eq_some_iff.mp ht
  exact h.starts u hu

theorem WellFormed.stored {conversation : List ConversationTurn} {trimmed : Nat}
    (h : WellFormed conversation trimmed) :
    WellFormed (conversation.map storedMessage) trimmed := by
  refine ⟨?_, ?_, by simpa using h.trimmed⟩
  · intro t ht
    obtain ⟨u, hu, rfl⟩ := List.mem_map.mp ht
    exact h.plain u hu
  · intro t ht
    rw [List.getElem?_map] at ht
    obtain ⟨u, hu, rfl⟩ := Option.map_eq_some_iff.mp ht
    exact h.starts u hu

/-! What holds between the turns and during one. -/

/-- Where the summary of an index ends in the conversation. -/
def boundaryAt (trimmed c : Nat) (prompt : Option ConversationTurn) : Nat :=
  trimmed + (c - prompt.toList.length)

/-- The stored index ends where the stored summary does. -/
structure StoredIndex (stored : StoredSession) (conversation : List ConversationTurn)
    (trimmed : Nat) (summarised : Finset Nat) (prompt : Option ConversationTurn) : Prop where
  without : stored.summary = "" → stored.summaryCoversUpTo = none ∧ trimmed = 0
  holding : stored.summary ≠ "" → ∃ c, stored.summaryCoversUpTo = some c ∧
    stored.messages ≠ [] ∧ c ≤ stored.messages.length ∧
    Boundary conversation trimmed summarised (boundaryAt trimmed c prompt)

structure Rests (s : State) : Prop where
  formed : WellFormed s.conversation s.trimmed
  index : ∃ prompt, Layout s.stored.messages s.conversation s.trimmed prompt ∧
    StoredIndex s.stored s.conversation s.trimmed s.summarised prompt

/-- The summary of the instance ends where its index says. -/
structure CacheIndex (inst : Instance) (conversation : List ConversationTurn) (trimmed : Nat)
    (summarised : Finset Nat) (prompt : Option ConversationTurn) : Prop where
  without : inst.summaryCache = none → trimmed = 0
  holding : ∀ cache ∈ inst.summaryCache, cache.text ≠ "" ∧ 1 ≤ cache.coversUpTo ∧
    cache.coversUpTo ≤ inst.history.length ∧
    Boundary conversation trimmed summarised (boundaryAt trimmed cache.coversUpTo prompt)

/-- The summary at load is the stored one, with an index that ends at the same message. -/
structure AtLoad (stored : StoredSession) (summaryAtLoad : Option SummaryCache)
    (prompt : Option ConversationTurn) : Prop where
  without : summaryAtLoad = none → stored.summary = "" ∧ stored.summaryCoversUpTo = none
  holding : ∀ cache ∈ summaryAtLoad, stored.summary = cache.text ∧
    ∃ c, stored.summaryCoversUpTo = some c ∧
      c - prompt.toList.length = cache.coversUpTo - prompt.toList.length

structure Running (s : State) (turn : Turn) : Prop where
  formed : WellFormed s.conversation s.trimmed
  stays : turn.inst.summaryCache = none → turn.summaryAtLoad = none
  index : ∃ prompt, Layout turn.inst.history s.conversation s.trimmed prompt ∧
    CacheIndex turn.inst s.conversation s.trimmed s.summarised prompt ∧
    AtLoad s.stored turn.summaryAtLoad prompt

def Inv (s : State) : Prop :=
  match s.turn with
  | none => Rests s
  | some turn => Running s turn

theorem inv_start : Inv start := by
  refine ⟨⟨by simp [start], by simp [start], le_rfl⟩, none, ⟨rfl, by simp⟩, ?_, ?_⟩
  · exact fun _ => ⟨rfl, rfl⟩
  · exact fun h => absurd rfl h

/-! A trim drops covered messages only. -/

theorem trimToLimit_cases (stored : StoredSession) :
    trimToLimit stored = stored ∨ ∃ n c, 1 ≤ n ∧ stored.summaryCoversUpTo = some c ∧ n ≤ c ∧
      n < stored.messages.length ∧
      trimToLimit stored =
        { stored with messages := stored.messages.drop n, summaryCoversUpTo := some (c - n) } := by
  unfold trimToLimit
  split_ifs with hlimit
  · exact .inl rfl
  · extract_lets overflow c n
    split_ifs with hn
    · exact .inl rfl
    · cases hcovers : stored.summaryCoversUpTo with
      | none => simp [n, c, hcovers] at hn
      | some covered =>
        have hc : c = covered := by simp [c, hcovers]
        refine .inr ⟨n, covered, by omega, rfl, ?_, ?_, by rw [hc]⟩
        · exact hc ▸ min_le_right _ _
        · have : n ≤ overflow := min_le_left _ _
          have : 0 < maxStoredMessages := by decide
          omega

/-- Trimming `n` messages moves the first message left and the index together. -/
theorem rests_trim {s : State} {history : List ConversationTurn} {stored : StoredSession}
    {prompt : Option ConversationTurn} (hformed : WellFormed s.conversation s.trimmed)
    (hlayout : Layout history s.conversation s.trimmed prompt)
    (hmessages : stored.messages = history.map storedMessage)
    (hindex : StoredIndex stored s.conversation s.trimmed s.summarised prompt) :
    Rests { s with
      stored := trimToLimit stored
      turn := none
      conversation := s.conversation.map storedMessage
      trimmed := s.trimmed + conversationCount
        (history.take (history.length - (trimToLimit stored).messages.length)) } := by
  obtain htrim | ⟨n, c, hn, hcovers, hnc, hlen, htrim⟩ := trimToLimit_cases stored
  · have hzero : history.length - stored.messages.length = 0 := by simp [hmessages]
    have hcount : conversationCount (history.take 0) = 0 := by simp [conversationCount]
    rw [htrim, hzero, hcount, Nat.add_zero]
    refine ⟨hformed.stored, prompt.map storedMessage, hmessages ▸ hlayout.stored,
      hindex.without, ?_⟩
    intro hsummary
    obtain ⟨c, hc, hne, hle, hboundary⟩ := hindex.holding hsummary
    refine ⟨c, hc, hne, hle, ?_⟩
    have hprompt : (prompt.map storedMessage).toList.length = prompt.toList.length := by
      cases prompt <;> rfl
    rw [boundaryAt, hprompt]
    exact hboundary.stored
  · have hsummary : stored.summary ≠ "" := by
      intro h
      have := (hindex.without h).1
      rw [hcovers] at this
      cases this
    obtain ⟨c', hc', -, hle, hboundary⟩ := hindex.holding hsummary
    obtain rfl := Option.some.inj (hcovers.symm.trans hc')
    have hhistory : history.length = stored.messages.length := by simp [hmessages]
    have hdropped : history.length - (stored.messages.drop n).length = n := by
      rw [List.length_drop]
      omega
    have hcount := hlayout.count hformed.plain hn (by omega)
    have hprompt := length_toList_le prompt
    have hupper := hboundary.upper
    have hboundaryAt : boundaryAt (s.trimmed + (n - prompt.toList.length)) (c - n) none =
        boundaryAt s.trimmed c prompt := by
      simp only [boundaryAt, Option.toList_none, List.length_nil]
      omega
    rw [htrim, hdropped, hcount]
    refine ⟨⟨hformed.stored.plain, hformed.stored.starts, ?_⟩, none, ⟨?_, by simp⟩, ?_, ?_⟩
    · simp only [boundaryAt, List.length_map] at hupper ⊢
      omega
    · rw [hmessages, ← List.map_drop, hlayout.drop hn]
      simp
    · exact fun h => absurd h hsummary
    · refine fun _ => ⟨c - n, rfl, ?_, ?_, ?_⟩
      · simpa using hlen
      · rw [List.length_drop]
        omega
      · rw [hboundaryAt]
        have hstored := hboundary.stored
        refine ⟨?_, hstored.upper, ?_, hstored.starts⟩
        · simp only [boundaryAt]
          omega
        · intro i hi
          exact hboundary.covers i ((Nat.le_add_right _ _).trans hi)

/-! Each step keeps the invariant. -/

/-- What is saved has the index of the instance's summary, written now or before the turn. -/
theorem rests_saved {s : State} {turn : Turn} (h : Running s turn) {cacheChanged : Bool}
    (hchanged : cacheChanged = false → turn.inst.summaryCache = turn.summaryAtLoad) :
    Rests (s.saved turn.inst cacheChanged) := by
  obtain ⟨prompt, hlayout, hcache, hload⟩ := h.index
  have hprompt := length_toList_le prompt
  cases hinst : turn.inst.summaryCache with
  | none =>
    have hpersist : persist s.stored turn.inst cacheChanged = trimToLimit
        { s.stored with messages := turn.inst.history.map storedMessage } := by
      simp [persist, hinst, StoredSession.setHistory]
    rw [State.saved, hpersist]
    apply rests_trim h.formed hlayout rfl
    have hnone := hload.without (h.stays hinst)
    exact ⟨fun _ => ⟨hnone.2, hcache.without hinst⟩, fun hs => absurd hnone.1 hs⟩
  | some cache =>
    obtain ⟨htext, hc, hle, hboundary⟩ := hcache.holding cache hinst
    have hne : turn.inst.history.map storedMessage ≠ [] := by
      intro h
      simp only [List.map_eq_nil_iff] at h
      simp [h] at hle
      omega
    by_cases hwrite : cacheChanged = true
    · have hpersist : persist s.stored turn.inst cacheChanged = trimToLimit
          { s.stored with
            messages := turn.inst.history.map storedMessage
            summary := cache.text
            summaryCoversUpTo := some cache.coversUpTo } := by
        simp [persist, hinst, hwrite, StoredSession.setHistory]
      rw [State.saved, hpersist]
      apply rests_trim h.formed hlayout rfl
      exact ⟨fun h => absurd h htext,
        fun _ => ⟨cache.coversUpTo, rfl, hne, by simpa using hle, hboundary⟩⟩
    · have hpersist : persist s.stored turn.inst cacheChanged = trimToLimit
          { s.stored with messages := turn.inst.history.map storedMessage } := by
        simp [persist, hinst, hwrite, StoredSession.setHistory]
      rw [State.saved, hpersist]
      apply rests_trim h.formed hlayout rfl
      have hsame : turn.summaryAtLoad = some cache :=
        (hchanged (by simpa using hwrite)).symm.trans hinst
      obtain ⟨hsummary, c, hcovers, hends⟩ := hload.holding cache hsame
      refine ⟨fun h => absurd (hsummary ▸ h) htext, fun _ => ⟨c, hcovers, hne, ?_, ?_⟩⟩
      · simp only [List.length_map]
        omega
      · rw [boundaryAt, hends]
        exact hboundary

theorem getOrCreateInstance_history (systemPrompt : Option String) (now : String)
    (stored : StoredSession) : (getOrCreateInstance systemPrompt now stored).history =
      (Instance.withStored systemPrompt now stored).history := by
  simp only [getOrCreateInstance]
  split_ifs <;> rfl

theorem withStored_history (systemPrompt : Option String) (now : String)
    (stored : StoredSession) : (Instance.withStored systemPrompt now stored).history =
      if stored.messages.head?.any isSystem then stored.messages
      else (systemPrompt.map fun prompt => systemTurn prompt now).toList ++ stored.messages := by
  have hnew : ((Instance.new systemPrompt now).history.head?.filter isSystem).toList =
      (systemPrompt.map fun prompt => systemTurn prompt now).toList := by
    cases systemPrompt <;> rfl
  unfold Instance.withStored Instance.setHistory
  by_cases hempty : stored.messages = []
  · simp [hempty, Instance.new]
  · rw [if_neg hempty, hnew]
    split_ifs <;> rfl

theorem withStored_summaryCache (systemPrompt : Option String) (now : String)
    (stored : StoredSession) :
    (Instance.withStored systemPrompt now stored).summaryCache = none := by
  unfold Instance.withStored Instance.setHistory
  split_ifs <;> rfl

theorem head_isSystem {history conversation : List ConversationTurn} {trimmed : Nat}
    {prompt : Option ConversationTurn} (h : Layout history conversation trimmed prompt)
    (hplain : ∀ t ∈ conversation, isSystem t = false) :
    history.head?.any isSystem = prompt.isSome := by
  rw [← h.head hplain]
  cases history with
  | nil => rfl
  | cons m rest => cases hm : isSystem m <;> simp [hm]

/-- After a load the history shows the same conversation, behind the stored prompt or else behind
the configured one. -/
theorem layout_load {s : State} {prompt : Option ConversationTurn} (systemPrompt : Option String)
    (now : String) (hplain : ∀ t ∈ s.conversation, isSystem t = false)
    (h : Layout s.stored.messages s.conversation s.trimmed prompt) :
    Layout (getOrCreateInstance systemPrompt now s.stored).history s.conversation s.trimmed
      (prompt.or (systemPrompt.map fun prompt => systemTurn prompt now)) := by
  rw [getOrCreateInstance_history, withStored_history, head_isSystem h hplain]
  cases prompt with
  | some p => exact h
  | none =>
    refine ⟨?_, ?_⟩
    · rw [if_neg (by simp), h.shows]
      rfl
    · intro p hp
      obtain ⟨q, -, rfl⟩ := Option.map_eq_some_iff.mp hp
      rfl

/-- Under the condition the clamped index ends at the same message. -/
theorem clamp_keeps {stored : StoredSession} {systemPrompt : Option String} {now : String}
    {conversation : List ConversationTurn} {trimmed c : Nat} {prompt : Option ConversationTurn}
    {history : List ConversationTurn} (hplain : ∀ t ∈ conversation, isSystem t = false)
    (hstored : Layout stored.messages conversation trimmed prompt)
    (hloaded : Layout history conversation trimmed
      (prompt.or (systemPrompt.map fun prompt => systemTurn prompt now)))
    (hsummary : stored.summary ≠ "") (hcovers : stored.summaryCoversUpTo = some c)
    (hne : stored.messages ≠ []) (hle : c ≤ stored.messages.length)
    (hkeeps : loadKeepsIndex stored systemPrompt = true) :
    let loaded := prompt.or (systemPrompt.map fun prompt => systemTurn prompt now)
    let clamped := min (max c 1) history.length
    1 ≤ clamped ∧ c - prompt.toList.length = clamped - loaded.toList.length ∧
      c - loaded.toList.length = clamped - loaded.toList.length := by
  have hpos : 0 < stored.messages.length := List.length_pos_of_ne_nil hne
  have hstoredLength := hstored.length
  have hlength := hloaded.length
  cases prompt with
  | some p =>
    simp only [Option.toList_some, Option.some_or, List.length_singleton] at *
    omega
  | none =>
    have hindex : systemPrompt.isSome = decide (c = 0) := by
      simpa [loadKeepsIndex, hsummary, head_isSystem hstored hplain, hcovers] using hkeeps
    cases systemPrompt with
    | some text =>
      have hzero : c = 0 := by simpa using hindex.symm
      simp only [Option.toList_none, Option.none_or, Option.map_some, Option.toList_some,
        List.length_singleton, List.length_nil] at *
      omega
    | none =>
      have hone : c ≠ 0 := by simpa using hindex.symm
      simp only [Option.toList_none, Option.none_or, Option.map_none, List.length_nil] at *
      omega

theorem running_load {s : State} (h : Rests s) {systemPrompt : Option String} {now : String}
    (hkeeps : loadKeepsIndex s.stored systemPrompt = true) :
    Running s (s.load systemPrompt now) := by
  obtain ⟨prompt, hlayout, hindex⟩ := h.index
  have hloaded := layout_load systemPrompt now h.formed.plain hlayout
  refine ⟨h.formed, id, _, hloaded, ?_⟩
  by_cases hsummary : s.stored.summary = ""
  · obtain ⟨hcovers, htrimmed⟩ := hindex.without hsummary
    have hnone : (getOrCreateInstance systemPrompt now s.stored).summaryCache = none := by
      rw [getOrCreateInstance, if_pos (.inl hsummary), withStored_summaryCache]
    refine ⟨⟨fun _ => htrimmed, ?_⟩, fun _ => ⟨hsummary, hcovers⟩, ?_⟩
    · intro cache hcache
      simp [State.load, hnone] at hcache
    · intro cache hcache
      simp [State.load, hnone] at hcache
  · obtain ⟨c, hcovers, hne, hle, hboundary⟩ := hindex.holding hsummary
    obtain ⟨hone, hends, hsame⟩ :=
      clamp_keeps h.formed.plain hlayout hloaded hsummary hcovers hne hle hkeeps
    have hsome : (s.load systemPrompt now).inst.summaryCache = some
        ⟨min (max c 1) (getOrCreateInstance systemPrompt now s.stored).history.length,
          s.stored.summary⟩ := by
      have hhistory : (Instance.withStored systemPrompt now s.stored).history ≠ [] := by
        rw [← getOrCreateInstance_history]
        rintro hempty
        simp [hempty] at hone
      rw [State.load, getOrCreateInstance_history]
      simp [getOrCreateInstance, hsummary, hhistory, hcovers]
    refine ⟨⟨fun hnone => ?_, ?_⟩, fun hnone => ?_, ?_⟩
    · cases hsome.symm.trans hnone
    · intro cache hcache
      obtain rfl := Option.some.inj (hsome.symm.trans hcache)
      refine ⟨hsummary, hone, min_le_right _ _, ?_⟩
      rw [boundaryAt, ← hends]
      exact hboundary
    · cases hsome.symm.trans hnone
    · intro cache hcache
      obtain rfl := Option.some.inj (hsome.symm.trans hcache)
      exact ⟨rfl, c, hcovers, hsame⟩

/-! What a round adds, and what a compaction moves. -/

theorem isRound_roles {head : ConversationTurn} {results : List ConversationTurn}
    (h : isRound head results = true) :
    head.role ≠ "tool" ∧ ∀ t ∈ head :: results, isSystem t = false := by
  simp only [isRound, decide_eq_true_eq] at h
  obtain ⟨hhead, hresults⟩ := h
  constructor
  · intro ht
    simp [ht] at hhead
  · intro t ht
    cases ht with
    | head => obtain hr | hr := hhead <;> simp [isSystem, hr]
    | tail _ ht => simp [isSystem, (hresults t ht).1]

theorem getElem?_append_starts {conversation ms : List ConversationTurn} {n : Nat}
    (hms : ∀ t ∈ ms.head?, t.role ≠ "tool") (hn : n ≤ conversation.length)
    (h : ∀ t ∈ conversation[n]?, t.role ≠ "tool") :
    ∀ t ∈ (conversation ++ ms)[n]?, t.role ≠ "tool" := by
  by_cases hlt : n < conversation.length
  · rwa [List.getElem?_append_left hlt]
  · have hzero : n - conversation.length = 0 := by omega
    rwa [List.getElem?_append_right (by omega), hzero, ← List.head?_eq_getElem?]

theorem Boundary.append {conversation : List ConversationTurn} {trimmed n : Nat}
    {summarised : Finset Nat} (h : Boundary conversation trimmed summarised n)
    {ms : List ConversationTurn} (hms : ∀ t ∈ ms.head?, t.role ≠ "tool") :
    Boundary (conversation ++ ms) trimmed summarised n := by
  refine ⟨h.lower, ?_, h.covers, getElem?_append_starts hms h.upper h.starts⟩
  rw [List.length_append]
  exact h.upper.trans (Nat.le_add_right _ _)

theorem running_append {s : State} {turn : Turn} (h : Running s turn) {head : ConversationTurn}
    {results : List ConversationTurn} (hround : isRound head results = true) :
    Running (s.appended turn (head :: results))
      { turn with inst := { turn.inst with history := turn.inst.history ++ head :: results } } := by
  obtain ⟨hhead, hplain⟩ := isRound_roles hround
  have hms : ∀ t ∈ (head :: results).head?, t.role ≠ "tool" := by simpa using hhead
  obtain ⟨prompt, hlayout, hcache, hload⟩ := h.index
  refine ⟨⟨?_, ?_, ?_⟩, h.stays, prompt, ⟨?_, hlayout.prompt⟩, ⟨hcache.without, ?_⟩, hload⟩
  · intro t ht
    obtain ht | ht := List.mem_append.mp ht
    · exact h.formed.plain t ht
    · exact hplain t ht
  · exact getElem?_append_starts hms (Nat.zero_le _) h.formed.starts
  · simp only [State.appended, List.length_append]
    exact h.formed.trimmed.trans (Nat.le_add_right _ _)
  · simp only [State.appended]
    rw [hlayout.shows, List.drop_append_of_le_length h.formed.trimmed, List.append_assoc]
  · intro cache hc
    obtain ⟨htext, hone, hle, hboundary⟩ := hcache.holding cache hc
    refine ⟨htext, hone, ?_, hboundary.append hms⟩
    simp only [List.length_append]
    exact hle.trans (Nat.le_add_right _ _)

/-- A new summary of the first `c` messages takes in the old one. -/
theorem mem_summarisedAfter {s : State} {old : Instance} {prompt : Option ConversationTurn}
    (hplain : ∀ t ∈ s.conversation, isSystem t = false)
    (hlayout : Layout old.history s.conversation s.trimmed prompt)
    (hcache : CacheIndex old s.conversation s.trimmed s.summarised prompt) {c : Nat}
    {text : String} (hlt : coveredUpTo old < c) (hle : c ≤ old.history.length) (i : Nat)
    (hi : s.trimmed ≤ i) :
    i ∈ summarisedAfter s old { old with summaryCache := some ⟨c, text⟩ } ↔
      i < boundaryAt s.trimmed c prompt := by
  have hcount := hlayout.count hplain (Nat.one_le_of_lt hlt) hle
  cases hold : old.summaryCache with
  | none =>
    simp [summarisedAfter, hold, existingSummary, hcount, hi, boundaryAt]
  | some cache =>
    obtain ⟨htext, -, hcle, hboundary⟩ := hcache.holding cache hold
    have hcovered : coveredUpTo old = cache.coversUpTo := by
      simp [coveredUpTo, hold, hcle]
    have hne : (some ⟨c, text⟩ : Option SummaryCache) ≠ some cache := by
      intro heq
      have := congrArg SummaryCache.coversUpTo (Option.some.inj heq)
      simp only at this
      omega
    have hmem := hboundary.covers i hi
    simp only [summarisedAfter, hold, hne, if_false, existingSummary, Option.map_some,
      Option.getD_some, htext, Finset.mem_union, Finset.mem_Ico, hcount, hi, true_and, hmem,
      boundaryAt]
    omega

theorem running_advance {s : State} {turn : Turn} (h : Running s turn) {inst : Instance}
    (hadv : Advances turn.inst inst) (compact : CompactState) :
    Running (s.withInstance turn inst compact) { turn with inst := inst } := by
  obtain ⟨prompt, hlayout, hcache, hload⟩ := h.index
  cases hadv with
  | kept =>
    have hsame : summarisedAfter s turn.inst turn.inst = s.summarised := by simp [summarisedAfter]
    refine ⟨h.formed, h.stays, prompt, hlayout, ?_, hload⟩
    simpa [State.withInstance, hsame] using hcache
  | moved c text htext hlt hle hsafe =>
    have hone := Nat.one_le_of_lt hlt
    have hlength := hlayout.length
    have htrimmed := h.formed.trimmed
    refine ⟨h.formed, nofun, prompt, hlayout, ⟨nofun, ?_⟩, hload⟩
    intro cache hc
    obtain rfl := Option.some.inj hc
    refine ⟨htext, hone, hle, ?_, ?_, ?_, ?_⟩
    · exact Nat.le_add_right _ _
    · simp only [State.withInstance, boundaryAt]
      omega
    · exact mem_summarisedAfter h.formed.plain hlayout hcache hlt hle
    · have hdrop := congrArg List.head? (hlayout.drop hone)
      rw [List.head?_drop, List.head?_drop] at hdrop
      simp only [State.withInstance, boundaryAt]
      rw [← hdrop]
      exact hsafe

/-! What a request shows. -/

theorem activeCache_of_index {inst : Instance} {conversation : List ConversationTurn}
    {trimmed : Nat} {summarised : Finset Nat} {prompt : Option ConversationTurn}
    (h : CacheIndex inst conversation trimmed summarised prompt) :
    activeCache inst = inst.summaryCache := by
  cases hc : inst.summaryCache with
  | none => simp [activeCache, hc]
  | some cache =>
    obtain ⟨htext, hone, -⟩ := h.holding cache hc
    simp [activeCache, hc, htext, hone]

theorem Projects.of_sent {s : State} {inst : Instance} {k : Nat}
    (hcovers : ∀ i, s.trimmed ≤ i → i < s.conversation.length →
      (i ∈ summarisedIn s inst ↔ i < k))
    (hstarts : ∀ t ∈ s.conversation[k]?, t.role ≠ "tool")
    (hsent : ∀ now, requestMessages inst now =
      repairToolMessagePairs ((openingOf inst now ++ s.conversation.drop k).map modelFacing)) :
    Projects s inst k where
  covers := hcovers
  starts := by rwa [List.head?_drop]
  sent := hsent
  others now := by
    rw [hsent]
    exact (repair_opening (openingOf_role inst now)).1
  paired h now := by
    rw [hsent]
    exact (repair_opening (openingOf_role inst now)).2 h

theorem Running.projects {s : State} {turn : Turn} (h : Running s turn) :
    ∃ k, Projects s turn.inst k := by
  obtain ⟨prompt, hlayout, hcache, -⟩ := h.index
  have hactive := activeCache_of_index hcache
  have hprompt := hlayout.head h.formed.plain
  cases hc : turn.inst.summaryCache with
  | none =>
    refine ⟨s.trimmed, .of_sent ?_ ?_ fun now => ?_⟩
    · intro i hi _
      simpa [summarisedIn, hactive, hc] using hi
    · rw [hcache.without hc]
      exact h.formed.starts
    · have hopening : openingOf turn.inst now = prompt.toList := by
        rw [openingOf, hprompt, hactive, hc]
        cases prompt <;> rfl
      simp [requestMessages, hactive, hc, projectHistoryForRequest, hopening, hlayout.shows]
  | some cache =>
    obtain ⟨-, hone, hle, hboundary⟩ := hcache.holding cache hc
    refine ⟨boundaryAt s.trimmed cache.coversUpTo prompt, .of_sent ?_ hboundary.starts
      fun now => ?_⟩
    · intro i hi _
      simpa [summarisedIn, hactive, hc] using hboundary.covers i hi
    · have htail : min (max (min cache.coversUpTo turn.inst.history.length) 1)
          turn.inst.history.length = cache.coversUpTo := by omega
      have hdrop := hlayout.drop hone
      simp only [requestMessages, hactive, hc, Option.map_some, projectHistoryForRequest, htail,
        openingOf, hprompt, hdrop, boundaryAt]
      cases prompt <;> rfl

/-! Runs. -/

theorem Inv.rests {s : State} (h : Inv s) (hturn : s.turn = none) : Rests s := by
  rwa [Inv, hturn] at h

theorem Inv.running {s : State} {turn : Turn} (h : Inv s) (hturn : s.turn = some turn) :
    Running s turn := by
  rwa [Inv, hturn] at h

theorem inv_compactSession {s : State} (h : Rests s) (hnone : s.turn = none)
    {systemPrompt : Option String} {now : String} {window : Nat} {text : Option String}
    (hkeeps : loadKeepsIndex s.stored systemPrompt = true) :
    Inv (compactSession s systemPrompt now window text).1 := by
  have hload : Running s (s.load systemPrompt now) := running_load h hkeeps
  have hrests (compact : CompactState) : Inv { s with compact := compact } := by
    rw [Inv]
    simp only [hnone]
    exact ⟨h.formed, h.index⟩
  unfold compactSession
  extract_lets turn before r
  split
  · exact hrests s.compact
  · split
    · have hadv := running_advance hload
        (forceCompressionOpts_advances turn.inst s.compact window text) r.2.1
      exact rests_saved hadv nofun
    · exact hrests r.2.1

theorem inv_step {s t : State} {l : Label} (h : Inv s) (hok : keepsIndex s l = true)
    (hs : step s l = some t) : Inv t := by
  cases hturn : s.turn with
  | none =>
    have hrests := h.rests hturn
    cases l with
    | load systemPrompt now =>
      obtain rfl : _ = t := by simpa [step, hturn] using hs
      have hload : Running s (s.load systemPrompt now) := running_load hrests hok
      exact Running.mk hload.formed hload.stays hload.index
    | compactSession systemPrompt now window text =>
      obtain rfl : _ = t := by simpa [step, hturn] using hs
      exact inv_compactSession hrests hturn hok
    | usage tokens =>
      obtain rfl : _ = t := by simpa [step, hturn] using hs
      exact Rests.mk hrests.formed hrests.index
    | _ => simp [step, hturn] at hs
  | some turn =>
    have hrunning := h.running hturn
    cases l with
    | append head results =>
      by_cases hround : isRound head results = true
      · obtain rfl : _ = t := by simpa [step, hturn, hround] using hs
        exact running_append hrunning hround
      · simp [step, hturn, hround] at hs
    | update io =>
      obtain rfl : _ = t := by simpa [step, hturn] using hs
      exact running_advance hrunning (maybeUpdateSummary_advances _ _ _) _
    | force window text =>
      obtain rfl : _ = t := by simpa [step, hturn] using hs
      exact running_advance hrunning (forceCompressionOpts_advances _ _ _ _) _
    | save =>
      obtain rfl : _ = t := by simpa [step, hturn] using hs
      exact rests_saved hrunning (by simp)
    | usage tokens =>
      obtain rfl : _ = t := by simpa [step, hturn] using hs
      exact Running.mk hrunning.formed hrunning.stays hrunning.index
    | _ => simp [step, hturn] at hs

theorem compaction_covers (ls : List Label) {t : State}
    (hok : Along step (fun s l => keepsIndex s l = true) start ls)
    (hrun : run step start ls = some t) : Covered t := by
  have hinv : Inv t := run_invariant (fun _ _ _ h hok hs => inv_step h hok hs) inv_start hok hrun
  intro turn hturn
  rw [Inv, hturn] at hinv
  exact hinv.projects

def message (role content : String) (toolCalls : List ToolCallInfo) (toolCallId : Option String) :
    ConversationTurn :=
  ⟨role, content, toolCalls, toolCallId, "", none, none, none, []⟩

def hello : ConversationTurn := message "user" "hello" [] none

/-- A turn with a tool call, a forced summary of its question, and a reload. -/
def shortSession : List Label :=
  [.load (some "p") "t", .append hello [],
    .append (message "assistant" "" [⟨"1", "ls", "{}"⟩] none) [message "tool" "a" [] (some "1")],
    .force 100 (some "s"), .save, .load (some "p") "t"]

theorem shortSession_covered : Covered ((run step start shortSession).get (by decide)) :=
  compaction_covers shortSession (by decide) (Option.some_get _).symm

/-- 1000 messages, a forced summary of all but two, and a reload. -/
def longSession : List Label :=
  .load (some "p") "t" :: (List.replicate 1000 (.append hello []) ++
    [.force 100 (some "s"), .save, .load (some "p") "t"])

def opened (n : Nat) : State :=
  { start with
    turn := some ⟨⟨systemTurn "p" "t" :: List.replicate n hello, none⟩, none⟩
    conversation := List.replicate n hello }

theorem run_opened (m n : Nat) :
    run step (opened m) (List.replicate n (.append hello [])) = some (opened (m + n)) := by
  induction n generalizing m with
  | zero => rfl
  | succ n ih =>
    have hstep : step (opened m) (.append hello []) = some (opened (m + 1)) := by
      have hround : isRound hello [] = true := by decide
      simp [step, opened, hround, State.appended, List.replicate_succ']
    simp only [List.replicate_succ, run, hstep]
    rw [ih, Nat.add_right_comm, Nat.add_assoc]

def compacted (n : Nat) : State :=
  { opened (n + 2) with
    turn := some ⟨⟨systemTurn "p" "t" :: List.replicate (n + 2) hello, some ⟨n + 1, "s"⟩⟩, none⟩
    summarised := Finset.Ico 0 n }

/-- The forced summary leaves the last two messages. -/
theorem step_force {n : Nat} (hn : 1 ≤ n) :
    step (opened (n + 2)) (.force 100 (some "s")) = some (compacted n) := by
  let inst : Instance := ⟨systemTurn "p" "t" :: List.replicate (n + 2) hello, none⟩
  have hprompt : isSystem (systemTurn "p" "t") = true := by decide
  have hhello : isSystem hello = false := by decide
  have hcovered : coveredUpTo inst = 0 := by simp [coveredUpTo, inst]
  have hlength : inst.history.length = n + 3 := by simp [inst]
  have hboundary : forcedBoundary inst = n + 1 := by
    have hget : inst.history[n + 1]? = some hello := by simp [inst]
    have hsafe : toolSafeBoundary inst.history (n + 1) = n + 1 := by
      have htool : (some hello).any (fun t => decide (t.role = "tool")) = false := by decide
      rw [toolSafeBoundary, hget, htool]
      rfl
    simpa [forcedBoundary, hcovered, hlength, smallKForce] using hsafe
  have htake : inst.history.take (n + 1) = systemTurn "p" "t" :: List.replicate n hello := by
    simp [inst]
  have hsummary : summarizePrefixOwned (inst.history.take (n + 1)) 100 (some "s") = some "s" := by
    have hwindow : summarizable 100 hello = true := by decide
    have hne : n ≠ 0 := by omega
    simp [summarizePrefixOwned, htake, hwindow, hne]
  have hcount : conversationCount (systemTurn "p" "t" :: List.replicate n hello) = n := by
    simp [conversationCount, hprompt, hhello]
  have hforce : forceCompressionOpts inst .default 100 (some "s") =
      (⟨inst.history, some ⟨n + 1, "s"⟩⟩, .default, true) := by
    simp [forceCompressionOpts, hboundary, hcovered, hsummary, CompactState.default]
  have hstep : step (opened (n + 2)) (.force 100 (some "s")) =
      some ((opened (n + 2)).withInstance ⟨inst, none⟩
        (forceCompressionOpts inst .default 100 (some "s")).1
        (forceCompressionOpts inst .default 100 (some "s")).2.1) := rfl
  rw [hstep, hforce]
  simp [State.withInstance, summarisedAfter, existingSummary, hcount, opened, start, compacted, inst]

def trimmedSession (n : Nat) : State :=
  { opened (n + 2) with
    stored := ⟨List.replicate (n + 2) hello, "s", some n, none, none⟩
    turn := none
    summarised := Finset.Ico 0 n }

/-- The history is one message too long, and the trim takes the system prompt. -/
theorem step_save {n : Nat} (hn : n = 998) : step (compacted n) .save = some (trimmedSession n) := by
  let history := systemTurn "p" "t" :: List.replicate (n + 2) hello
  have hhello : storedMessage hello = hello := rfl
  have hlength : history.length = n + 3 := by simp [history]
  have htrim : trimToLimit ⟨history.map storedMessage, "s", some (n + 1), none, none⟩ =
      ⟨List.replicate (n + 2) hello, "s", some n, none, none⟩ := by
    have hlimit : ¬ n + 3 ≤ maxStoredMessages := by simp [maxStoredMessages, hn]
    have hdrop : min (n + 3 - maxStoredMessages) (n + 1) = 1 := by simp [maxStoredMessages, hn]
    simp [trimToLimit, hlimit, hdrop, history, hhello]
  have hpersist : persist .empty ⟨history, some ⟨n + 1, "s"⟩⟩ true =
      ⟨List.replicate (n + 2) hello, "s", some n, none, none⟩ := by
    simpa [persist, StoredSession.setHistory, StoredSession.empty] using htrim
  have hdropped : conversationCount (history.take (history.length - (n + 2))) = 0 := by
    have hone : n + 3 - (n + 2) = 1 := by omega
    have hprompt : isSystem (systemTurn "p" "t") = true := by decide
    simp [hlength, hone, history, conversationCount, hprompt]
  have hstep : step (compacted n) .save =
      some ((compacted n).saved ⟨history, some ⟨n + 1, "s"⟩⟩ true) := rfl
  rw [hstep, State.saved, show (compacted n).stored = .empty from rfl, hpersist]
  simp [hdropped, trimmedSession, compacted, opened, start, hhello]

/-- The prompt is put in front again, but the index stays. -/
theorem load_trimmed {n : Nat} (hn : 1 ≤ n) :
    (trimmedSession n).load (some "p") "t" =
      ⟨⟨systemTurn "p" "t" :: List.replicate (n + 2) hello, some ⟨n, "s"⟩⟩, some ⟨n, "s"⟩⟩ := by
  have hhead : (List.replicate (n + 2) hello).head?.any isSystem = false :=
    (by decide : (some hello).any isSystem = false)
  have hwith : Instance.withStored (some "p") "t" (trimmedSession n).stored =
      ⟨systemTurn "p" "t" :: List.replicate (n + 2) hello, none⟩ := by
    have hprompt : (some (systemTurn "p" "t")).filter isSystem = some (systemTurn "p" "t") := by
      decide
    simp [Instance.withStored, Instance.setHistory, hhead, trimmedSession, Instance.new, hprompt]
  have hclamp : min (max n 1) (n + 3) = n := by omega
  have hload : getOrCreateInstance (some "p") "t" (trimmedSession n).stored =
      ⟨systemTurn "p" "t" :: List.replicate (n + 2) hello, some ⟨n, "s"⟩⟩ := by
    simp only [getOrCreateInstance, hwith]
    simp [trimmedSession, hclamp]
  rw [State.load, hload]

/-- The message before the last three is summarised and sent. -/
theorem trimmed_not_covered {n : Nat} (hn : 1 ≤ n) :
    ¬ Covered { trimmedSession n with
      turn := some ((trimmedSession n).load (some "p") "t") } := by
  intro h
  obtain ⟨k, hk⟩ := h _ rfl
  rw [load_trimmed hn] at hk
  let inst : Instance := ⟨systemTurn "p" "t" :: List.replicate (n + 2) hello, some ⟨n, "s"⟩⟩
  have hprompt : isSystem (systemTurn "p" "t") = true := by decide
  have hactive : activeCache inst = some ⟨n, "s"⟩ := by simp [activeCache, inst, hn]
  have htail : min (max (min n (n + 3)) 1) (n + 3) = n := by omega
  have hdrop : inst.history.drop n = List.replicate 3 hello := by
    obtain ⟨m, rfl⟩ : ∃ m, n = m + 1 := ⟨n - 1, by omega⟩
    have hthree : m + 1 + 2 - m = 3 := by omega
    simp only [inst, List.drop_succ_cons, List.drop_replicate, hthree]
  have hlong : inst.history.length = n + 3 := by simp [inst]
  have hhead : inst.history.head?.filter isSystem = some (systemTurn "p" "t") := by
    simp [inst, hprompt]
  have hsent : (nonTool (requestMessages inst "t")).length = 4 := by
    simp only [requestMessages, hactive, Option.map_some, projectHistoryForRequest, nonTool_repair,
      nonTool_map_modelFacing, hlong, htail, hdrop, hhead]
    rfl
  have hopening : (openingOf inst "t").length = 1 := by
    simp only [openingOf, hactive, hhead]
    rfl
  have hplain : ∀ j, (nonTool (List.replicate j hello)).length = j := by
    have hhello : hello.role ≠ "tool" := by decide
    simp [nonTool, hhello]
  have hlast : k = n - 1 := by
    have hothers := congrArg List.length (hk.others "t")
    rw [hsent, List.length_append, hopening] at hothers
    simp only [trimmedSession, opened, List.drop_replicate, hplain] at hothers
    omega
  have hin : n - 1 < (trimmedSession n).conversation.length := by
    simp only [trimmedSession, opened, List.length_replicate]
    omega
  have hcovers := hk.covers (n - 1) (Nat.zero_le _) hin
  have hsummarised : summarisedIn { trimmedSession n with
      turn := some ⟨inst, some ⟨n, "s"⟩⟩ } inst = Finset.Ico 0 n := by
    simp only [summarisedIn, hactive]
    rfl
  have hmem : n - 1 ∈ Finset.Ico 0 n := Finset.mem_Ico.mpr ⟨Nat.zero_le _, by omega⟩
  exact absurd (hcovers.mp (hsummarised ▸ hmem)) (by omega)

theorem long_session_repeats : ∃ t, run step start longSession = some t ∧ ¬ Covered t := by
  obtain ⟨n, hn⟩ : ∃ n, n = 998 := ⟨998, rfl⟩
  have hlength : 1000 = n + 2 := by omega
  refine ⟨_, ?_, trimmed_not_covered (n := n) (by omega)⟩
  have hload : step start (.load (some "p") "t") = some (opened 0) := rfl
  have hopened : run step (opened 0) (List.replicate (n + 2) (.append hello [])) =
      some (opened (n + 2)) := by
    rw [run_opened, Nat.zero_add]
  have hforce := step_force (n := n) (by omega)
  have hsave := step_save hn
  rw [longSession, hlength]
  simp only [run, hload, run_append, hopened, Option.bind_some, hforce, hsave]
  rfl

end NemesisBot.Compaction
