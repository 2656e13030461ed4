import NemesisBot.Agent.Types

/-! `repair_tool_message_pairs`: its three passes, each as a function of the rest of the list. -/
namespace NemesisBot.Agent

/-- Pass 0, seen from the last message: the positions whose id is already answered later. -/
def duplicates : List (ConversationTurn × Nat) → List String → List Nat
  | [], _ => []
  | (m, i) :: rest, seen => match answerOf m with
    | some id => if id ∈ seen then i :: duplicates rest seen else duplicates rest (id :: seen)
    | none => duplicates rest seen

def dropDuplicates (ms : List ConversationTurn) : List ConversationTurn :=
  (duplicates ms.zipIdx.reverse []).foldl List.eraseIdx ms

/-- Pass 1, `retain` with the call ids seen so far. -/
def dropOrphans : List String → List ConversationTurn → List ConversationTurn
  | _, [] => []
  | seen, m :: rest =>
    let keep := if m.role = "tool" then
        match m.toolCallId with
        | some id => decide (id ∈ seen)
        | none => false
      else true
    let seen := if m.role = "assistant" then seen ++ m.toolCalls.map ToolCallInfo.id else seen
    if keep then m :: dropOrphans seen rest else dropOrphans seen rest

def toolOutcomeUnknown : String := "TOOL_OUTCOME_UNKNOWN"

def toolOutcomeUnknownText : String :=
  "该工具调用没有记录到结果，其执行结果未知。请根据操作性质决定：" ++
    "仅在操作是只读或幂等时可以直接重试；若可能有副作用（写文件、执行命令、发送消息等），" ++
    "请先验证外部状态（读回文件 / 检查输出）或询问用户，不要盲目重试。"

def syntheticResult (m : ConversationTurn) (tc : ToolCallInfo) : ConversationTurn where
  role := "tool"
  content := "[" ++ toolOutcomeUnknown ++ "] " ++ toolOutcomeUnknownText
  toolCalls := []
  toolCallId := some tc.id
  timestamp := m.timestamp
  reasoningContent := none
  toolName := some tc.name
  toolResultProjection := none
  imageRefs := []

/-- Pass 2 at one position: the synthetic results for the calls without one. -/
def insertionsAt (ms : List ConversationTurn) (i : Nat) : List (Nat × ConversationTurn) :=
  match ms[i]? with
  | none => []
  | some m =>
    if m.role = "assistant" ∧ m.toolCalls ≠ [] then
      let callIds := m.toolCalls.map ToolCallInfo.id
      let foundIds := ((answers (ms.drop (i + 1))).filter (· ∈ callIds)).dedup
      if foundIds.length < callIds.length then
        (m.toolCalls.filter fun tc => tc.id ∉ foundIds).map fun tc => (i + 1, syntheticResult m tc)
      else []
    else []

def insertAll (insertions : List (Nat × ConversationTurn)) (ms : List ConversationTurn) :
    List ConversationTurn :=
  insertions.reverse.foldl (fun ms p => ms.insertIdx p.1 p.2) ms

def addMissing (ms : List ConversationTurn) : List ConversationTurn :=
  insertAll ((List.range ms.length).flatMap (insertionsAt ms)) ms

def repairToolMessagePairs (ms : List ConversationTurn) : List ConversationTurn :=
  if ms = [] then ms else addMissing (dropOrphans [] (dropDuplicates ms))

/-! The passes as functions of the rest of the list. -/

/-- Of the messages that answer one id the last one stays. -/
def keepLast : List ConversationTurn → List ConversationTurn
  | [] => []
  | m :: rest => match answerOf m with
    | some id => if id ∈ answers rest then keepLast rest else m :: keepLast rest
    | none => m :: keepLast rest

def missing (m : ConversationTurn) (rest : List ConversationTurn) : List ConversationTurn :=
  if m.role = "assistant" then
    (m.toolCalls.filter fun tc => tc.id ∉ answers rest).map (syntheticResult m)
  else []

/-- Every call without a later answer gets one right after its message. -/
def fill : List ConversationTurn → List ConversationTurn
  | [] => []
  | m :: rest => m :: (missing m rest ++ fill rest)

theorem duplicates_concat (xs : List (ConversationTurn × Nat)) (seen : List String)
    (m : ConversationTurn) (i : Nat) :
    duplicates (xs ++ [(m, i)]) seen = duplicates xs seen ++
      match answerOf m with
      | some id => if id ∈ seen ∨ id ∈ answers (xs.map Prod.fst) then [i] else []
      | none => [] := by
  induction xs generalizing seen with
  | nil =>
    cases h : answerOf m with
    | none => simp [duplicates, h]
    | some id => by_cases hs : id ∈ seen <;> simp [duplicates, h, hs]
  | cons x xs ih =>
    obtain ⟨n, j⟩ := x
    cases hn : answerOf n with
    | none => simp [duplicates, hn, ih, answers_cons]
    | some id' =>
      by_cases hs : id' ∈ seen
      · cases h : answerOf m with
        | none => simp [duplicates, hn, hs, ih, h]
        | some id =>
          have : (id ∈ seen ∨ id ∈ answers (n :: xs.map Prod.fst)) ↔
              (id ∈ seen ∨ id ∈ answers (xs.map Prod.fst)) := by
            simp only [answers_cons, hn, Option.toList_some, List.singleton_append,
              List.mem_cons]
            constructor
            · rintro (h | rfl | h)
              · exact .inl h
              · exact .inl hs
              · exact .inr h
            · rintro (h | h)
              · exact .inl h
              · exact .inr (.inr h)
          simp [duplicates, hn, hs, ih, h, this]
      · simp only [List.cons_append, duplicates, hn, hs, if_false, ih, List.map_cons]
        cases h : answerOf m with
        | none => simp
        | some id =>
          simp only [answers_cons, hn, Option.toList_some, List.singleton_append, List.mem_cons]
          congr 2
          exact propext (by tauto)

theorem dropDuplicates_from (pre ms : List ConversationTurn) :
    (duplicates (ms.zipIdx pre.length).reverse []).foldl List.eraseIdx (pre ++ ms) =
      pre ++ keepLast ms := by
  induction ms generalizing pre with
  | nil => simp [duplicates, keepLast]
  | cons m rest ih =>
    have hm : ((rest.zipIdx (pre.length + 1)).reverse.map Prod.fst) = rest.reverse := by
      rw [List.map_reverse, List.zipIdx_map_fst]
    have hmem : ∀ id, id ∈ answers rest.reverse ↔ id ∈ answers rest := by
      simp [answers]
    have hih := ih (pre ++ [m])
    simp only [List.length_append, List.length_singleton, List.append_assoc,
      List.singleton_append] at hih
    rw [List.zipIdx_cons, List.reverse_cons, duplicates_concat, List.foldl_append, hih, hm]
    cases h : answerOf m with
    | none => simp [keepLast, h]
    | some id =>
      by_cases hid : id ∈ answers rest
      · simp [keepLast, h, hid, hmem, List.eraseIdx_append_of_length_le]
      · simp [keepLast, h, hid, hmem]

theorem dropDuplicates_eq (ms : List ConversationTurn) : dropDuplicates ms = keepLast ms := by
  simpa [dropDuplicates] using dropDuplicates_from [] ms

theorem insertIdx_length_append {α : Type*} (pre ms : List α) (t : α) :
    (pre ++ ms).insertIdx pre.length t = pre ++ t :: ms := by
  induction pre with
  | nil => simp
  | cons x pre ih => simpa using ih

theorem insertAll_append (xs ys : List (Nat × ConversationTurn)) (ms : List ConversationTurn) :
    insertAll (xs ++ ys) ms = insertAll xs (insertAll ys ms) := by
  simp [insertAll]

/-- Insertions at one position arrive in their order. -/
theorem insertAll_at (pre ts ms : List ConversationTurn) :
    insertAll (ts.map fun t => (pre.length, t)) (pre ++ ms) = pre ++ (ts ++ ms) := by
  induction ts with
  | nil => simp [insertAll]
  | cons t ts ih =>
    have h := insertAll_append [(pre.length, t)] (ts.map fun t => (pre.length, t)) (pre ++ ms)
    rw [List.singleton_append] at h
    rw [List.map_cons, h, ih]
    simp [insertAll, insertIdx_length_append]

/-- The count guard of pass 2 skips only messages whose calls are all answered. -/
theorem insertionsAt_eq (pre : List ConversationTurn) (m : ConversationTurn)
    (rest : List ConversationTurn) :
    insertionsAt (pre ++ m :: rest) pre.length =
      (missing m rest).map fun t => (pre.length + 1, t) := by
  have hget : (pre ++ m :: rest)[pre.length]? = some m := by simp
  have hdrop : (pre ++ m :: rest).drop (pre.length + 1) = rest := by
    simp [List.drop_append]
  simp only [insertionsAt, hget, hdrop, missing]
  by_cases hr : m.role = "assistant"
  · have hfound : ∀ tc ∈ m.toolCalls,
        tc.id ∈ ((answers rest).filter (· ∈ m.toolCalls.map ToolCallInfo.id)).dedup ↔
          tc.id ∈ answers rest := by
      intro tc htc
      simp only [List.mem_dedup, List.mem_filter, decide_eq_true_eq, and_iff_left_iff_imp]
      intro _
      exact List.mem_map_of_mem htc
    have hfilter : (m.toolCalls.filter fun tc =>
        tc.id ∉ ((answers rest).filter (· ∈ m.toolCalls.map ToolCallInfo.id)).dedup) =
          m.toolCalls.filter fun tc => tc.id ∉ answers rest := by
      apply List.filter_congr
      intro tc htc
      simp only [hfound tc htc]
    by_cases hc : m.toolCalls = []
    · simp [hr, hc]
    · rw [if_pos ⟨hr, hc⟩, if_pos hr, hfilter]
      split
      · simp [Function.comp_def]
      · have hsub : ((answers rest).filter (· ∈ m.toolCalls.map ToolCallInfo.id)).dedup ⊆
            m.toolCalls.map ToolCallInfo.id := by
          intro id hid
          simpa using (List.mem_filter.mp (List.mem_dedup.mp hid)).2
        have hperm := ((List.nodup_dedup _).subperm hsub).perm_of_length_le (by omega)
        have hall : ∀ tc ∈ m.toolCalls, tc.id ∈ answers rest := by
          intro tc htc
          exact (hfound tc htc).mp (hperm.mem_iff.mpr (List.mem_map_of_mem htc))
        simpa using hall
  · simp [hr]

theorem addMissing_from (pre ms : List ConversationTurn) :
    insertAll ((List.range' pre.length ms.length).flatMap (insertionsAt (pre ++ ms)))
      (pre ++ ms) = pre ++ fill ms := by
  induction ms generalizing pre with
  | nil => simp [insertAll, fill]
  | cons m rest ih =>
    have hih := ih (pre ++ [m])
    simp only [List.length_append, List.length_singleton, List.append_assoc,
      List.singleton_append] at hih
    have hat := insertAll_at (pre ++ [m]) (missing m rest) (fill rest)
    simp only [List.length_append, List.length_singleton, List.append_assoc,
      List.singleton_append] at hat
    rw [List.length_cons, List.range'_succ, List.flatMap_cons, insertAll_append, hih,
      insertionsAt_eq, hat, fill]

theorem addMissing_eq (ms : List ConversationTurn) : addMissing ms = fill ms := by
  simpa [addMissing, List.range_eq_range'] using addMissing_from [] ms

theorem repairToolMessagePairs_eq (ms : List ConversationTurn) :
    repairToolMessagePairs ms = fill (dropOrphans [] (keepLast ms)) := by
  rw [repairToolMessagePairs, addMissing_eq, dropDuplicates_eq]
  split
  · subst ms
    rfl
  · rfl

/-! Non-tool messages, and with them the calls, pass through unchanged. -/

theorem calls_nonTool (ms : List ConversationTurn) : calls (nonTool ms) = calls ms := by
  induction ms with
  | nil => rfl
  | cons m rest ih =>
    by_cases hm : m.role = "tool"
    · simpa [nonTool, hm, callsOf_of_tool hm] using ih
    · simpa [nonTool, hm] using ih

theorem nonTool_keepLast (ms : List ConversationTurn) : nonTool (keepLast ms) = nonTool ms := by
  induction ms with
  | nil => rfl
  | cons m rest ih =>
    cases h : answerOf m with
    | none => rw [keepLast, h, nonTool_cons, ih, ← nonTool_cons]
    | some id =>
      have hm := role_of_answerOf h
      by_cases hid : id ∈ answers rest
      · simpa [keepLast, h, hid, nonTool, hm] using ih
      · simpa [keepLast, h, hid, nonTool, hm] using ih

theorem calls_keepLast (ms : List ConversationTurn) : calls (keepLast ms) = calls ms := by
  rw [← calls_nonTool, nonTool_keepLast, calls_nonTool]

/-- A tool message stays when one of the ids seen is its own. -/
def Follows (seen : List String) (m : ConversationTurn) : Prop :=
  m.role = "tool" → ∃ id ∈ seen, m.toolCallId = some id

theorem dropOrphans_cons (seen : List String) (m : ConversationTurn)
    (rest : List ConversationTurn) :
    (Follows seen m → dropOrphans seen (m :: rest) = m :: dropOrphans (seen ++ callsOf m) rest) ∧
      (¬ Follows seen m → dropOrphans seen (m :: rest) = dropOrphans seen rest) := by
  by_cases ht : m.role = "tool"
  · cases hid : m.toolCallId with
    | none => simp [Follows, dropOrphans, ht, hid]
    | some id =>
      by_cases hs : id ∈ seen <;> simp [Follows, dropOrphans, callsOf, ht, hid, hs]
  · by_cases ha : m.role = "assistant"
    · simp [Follows, dropOrphans, callsOf, ha]
    · simp [Follows, dropOrphans, callsOf, ha, ht]

theorem role_of_not_follows {seen : List String} {m : ConversationTurn} (h : ¬ Follows seen m) :
    m.role = "tool" := by
  by_contra hm
  exact h fun ht => absurd ht hm

theorem follows_of_answerOf {seen : List String} {m : ConversationTurn} {id : String}
    (h : answerOf m = some id) : Follows seen m ↔ id ∈ seen := by
  have hr := role_of_answerOf h
  simp only [answerOf, hr, if_true] at h
  simp [Follows, hr, h]

theorem dropOrphans_append (seen : List String) (ps ms : List ConversationTurn) :
    dropOrphans seen (ps ++ ms) = dropOrphans seen ps ++ dropOrphans (seen ++ calls ps) ms := by
  induction ps generalizing seen with
  | nil => simp [dropOrphans]
  | cons m rest ih =>
    by_cases h : Follows seen m
    · rw [List.cons_append, (dropOrphans_cons seen m _).1 h, (dropOrphans_cons seen m rest).1 h, ih]
      simp
    · have hc := callsOf_of_tool (role_of_not_follows h)
      rw [List.cons_append, (dropOrphans_cons seen m _).2 h, (dropOrphans_cons seen m rest).2 h, ih]
      simp [hc]

theorem nonTool_dropOrphans (seen : List String) (ms : List ConversationTurn) :
    nonTool (dropOrphans seen ms) = nonTool ms := by
  induction ms generalizing seen with
  | nil => rfl
  | cons m rest ih =>
    by_cases h : Follows seen m
    · rw [(dropOrphans_cons seen m rest).1 h, nonTool_cons, ih, ← nonTool_cons]
    · have hm := role_of_not_follows h
      rw [(dropOrphans_cons seen m rest).2 h]
      simpa [nonTool, hm] using ih seen

theorem role_of_mem_missing {m t : ConversationTurn} {rest : List ConversationTurn}
    (h : t ∈ missing m rest) : t.role = "tool" := by
  unfold missing at h
  split at h
  · obtain ⟨tc, -, rfl⟩ := List.mem_map.mp h
    rfl
  · simp at h

theorem nonTool_missing (m : ConversationTurn) (rest : List ConversationTurn) :
    nonTool (missing m rest) = [] := by
  apply List.filter_eq_nil_iff.mpr
  intro t ht
  simp [role_of_mem_missing ht]

theorem calls_missing (m : ConversationTurn) (rest : List ConversationTurn) :
    calls (missing m rest) = [] := by
  rw [← calls_nonTool, nonTool_missing, calls_nil]

theorem answers_missing (m : ConversationTurn) (rest : List ConversationTurn) :
    answers (missing m rest) = (callsOf m).filter (· ∉ answers rest) := by
  unfold missing callsOf
  split
  · simp [answers, List.filterMap_map, Function.comp_def, answerOf, syntheticResult,
      List.filter_map]
  · rfl

theorem missing_of_tool {m : ConversationTurn} (h : m.role = "tool")
    (rest : List ConversationTurn) : missing m rest = [] := by
  simp [missing, h]

theorem nonTool_fill (ms : List ConversationTurn) : nonTool (fill ms) = nonTool ms := by
  induction ms with
  | nil => rfl
  | cons m rest ih =>
    rw [fill, nonTool_cons, nonTool_append, nonTool_missing, List.nil_append, ih, ← nonTool_cons]

end NemesisBot.Agent
