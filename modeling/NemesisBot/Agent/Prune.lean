import NemesisBot.Lib.Strings

/-! Tool results that are too long are cut to a head, a note and a tail, once when they are
dispatched and again when the history is projected. -/
namespace NemesisBot.Prune
open Strings

def maxToolResultInlineChars : Nat := 8192
def pruneHeadChars : Nat := 3600
def pruneTailChars : Nat := 3600

def subagentHintSuffix : Text :=
  "也可派子代理（spawn 工具）读取该内容并只回传相关摘要，避免主会话占用上下文。".toList

def hintText (hintSubagent : Bool) : Text := if hintSubagent then subagentHintSuffix else []

def noteStart : Text := "\n[结果过长已截断：".toList
def noteTotal : Text := " 共 ".toList
def noteOmitted : Text := " 字符，中间省略约 ".toList
def noteLost : Text := " 字符。截断后内容不可从历史恢复；".toList
def noteAdvice : Text :=
  "如需完整输出请缩小范围重试该工具（如指定更精确的路径/模式或 offset/limit）。".toList
def noteEnd : Text := "]\n...".toList

/-- What stands between the head and the tail. -/
def note (toolName : Text) (totalChars omitted : Nat) (hintSubagent : Bool) : Text :=
  noteStart ++ toolName ++ noteTotal ++ Nat.toDigits 10 totalChars ++ noteOmitted ++
    Nat.toDigits 10 omitted ++ noteLost ++ noteAdvice ++ hintText hintSubagent ++ noteEnd

/-- `none` when a subtraction falls below zero, `some none` when the result is short enough. -/
def pruneImpl (result toolName : Text) (hintSubagent : Bool) (threshold headChars tailChars : Nat) :
    Option (Option Text) :=
  let totalChars := result.length
  if totalChars ≤ threshold then some none
  else if totalChars < headChars ∨ totalChars - headChars < tailChars then none
  else
    let omitted := totalChars - headChars - tailChars
    some (some (result.take headChars ++ note toolName totalChars omitted hintSubagent ++
      result.drop (totalChars - tailChars)))

def pruneToolResult (result toolName : Text) (hintSubagent : Bool) : Option (Option Text) :=
  pruneImpl result toolName hintSubagent maxToolResultInlineChars pruneHeadChars pruneTailChars

def capHeadBudget (cap : Nat) (hintSubagent : Bool) : Nat :=
  min ((cap - (256 + (hintText hintSubagent).length)) / 2) pruneHeadChars

def pruneToolResultWithCap (result toolName : Text) (hintSubagent : Bool) (cap : Nat) :
    Option (Option Text) :=
  if cap = 0 then some none
  else
    let half := capHeadBudget cap hintSubagent
    pruneImpl result toolName hintSubagent cap half half

def capPruneMatchesRecompute (cap totalChars : Nat) : Bool :=
  let gatePruned := cap != 0 && decide (cap < totalChars)
  let recomputePrunes := decide (maxToolResultInlineChars < totalChars)
  match gatePruned, recomputePrunes with
  | false, false => true
  | true, true => capHeadBudget cap false == pruneHeadChars
  | _, _ => false

structure ConversationTurn where
  role : Text
  content : Text
  toolName : Option Text
  toolResultProjection : Option Text

def modelFacingContent (turn : ConversationTurn) : Option Text :=
  if turn.role ≠ "tool".toList then some turn.content
  else match turn.toolResultProjection with
    | some projection => some projection
    | none => (pruneToolResult turn.content (turn.toolName.getD "tool".toList) false).map fun p =>
      p.getD turn.content

/-- The note of a result that the cap cuts. -/
def capNote (result toolName : Text) (cap : Nat) : Text :=
  note toolName result.length (result.length - capHeadBudget cap false - capHeadBudget cap false) false

/-- The two ways of pruning, and the second pruning after the first. -/
structure Agrees (result toolName : Text) (cap : Nat) : Prop where
  defined : (pruneToolResultWithCap result toolName false cap).isSome = true ∧
    (pruneToolResult result toolName false).isSome = true
  same : capPruneMatchesRecompute cap result.length = true →
    (pruneToolResultWithCap result toolName false cap).map (fun p => p.getD result) =
      (pruneToolResult result toolName false).map fun p => p.getD result
  again : ∀ pruned other, byteLen toolName ≤ 64 →
    pruneToolResultWithCap result toolName false cap = some (some pruned) →
    (pruneToolResultWithCap pruned other false cap = some none ↔
      (capNote result toolName cap).length ≤ cap) ∧
    (256 ≤ cap → pruneToolResultWithCap pruned other false cap = some none)

variable {result toolName : Text} {hintSubagent : Bool} {cap threshold headChars tailChars : Nat}

theorem pruneImpl_short (h : result.length ≤ threshold) :
    pruneImpl result toolName hintSubagent threshold headChars tailChars = some none := if_pos h

theorem pruneImpl_long (h : threshold < result.length) (hb : headChars + tailChars ≤ threshold) :
    pruneImpl result toolName hintSubagent threshold headChars tailChars =
      some (some (result.take headChars ++ note toolName result.length
        (result.length - headChars - tailChars) hintSubagent ++
        result.drop (result.length - tailChars))) := by
  simp only [pruneImpl]
  rw [if_neg (by omega), if_neg (by omega)]

theorem pruneImpl_isSome (hb : headChars + tailChars ≤ threshold) :
    (pruneImpl result toolName hintSubagent threshold headChars tailChars).isSome = true := by
  cases Nat.lt_or_ge threshold result.length with
  | inl h => rw [pruneImpl_long h hb]; rfl
  | inr h => rw [pruneImpl_short h]; rfl

/-- Twice the budget leaves room for the note. -/
theorem capHeadBudget_le (cap : Nat) (hintSubagent : Bool) :
    capHeadBudget cap hintSubagent + capHeadBudget cap hintSubagent ≤ cap := by
  rw [capHeadBudget]
  omega

theorem length_note (toolName : Text) (totalChars omitted : Nat) :
    (note toolName totalChars omitted false).length = 90 + toolName.length +
      (Nat.toDigits 10 totalChars).length + (Nat.toDigits 10 omitted).length := by
  have h1 : noteStart.length = 10 := by decide +kernel
  have h2 : noteTotal.length = 3 := by decide +kernel
  have h3 : noteOmitted.length = 10 := by decide +kernel
  have h4 : noteLost.length = 17 := by decide +kernel
  have h5 : noteAdvice.length = 45 := by decide +kernel
  have h6 : noteEnd.length = 5 := by decide +kernel
  have h7 : (hintText false).length = 0 := rfl
  simp only [note, List.length_append, h1, h2, h3, h4, h5, h6, h7]
  omega

theorem length_le_byteLen (s : Text) : s.length ≤ byteLen s := by
  induction s with
  | nil => exact Nat.le_refl 0
  | cons c s ih =>
    have hc := Char.utf8Size_pos c
    rw [byteLen, List.map_cons, List.sum_cons, ← byteLen, List.length_cons]
    omega

/-- Lengths are words, so the numbers have at most twenty digits. -/
theorem length_capNote_le (hr : result.length < 2 ^ 64) (hn : byteLen toolName ≤ 64) :
    (capNote result toolName cap).length ≤ 194 := by
  have hdigits (n : Nat) (h : n < 2 ^ 64) : (Nat.toDigits 10 n).length ≤ 20 :=
    (Nat.length_toDigits_le_iff (by omega) (by omega)).mpr (by omega)
  have hname := length_le_byteLen toolName
  have htotal := hdigits _ hr
  have homitted := hdigits (result.length - capHeadBudget cap false - capHeadBudget cap false)
    (by omega)
  rw [capNote, length_note]
  omega

/-- The length of what the cap leaves. -/
theorem length_pruned {pruned : Text} (h : pruneToolResultWithCap result toolName false cap =
    some (some pruned)) : 0 < cap ∧ pruned.length =
      capHeadBudget cap false + (capNote result toolName cap).length + capHeadBudget cap false := by
  rw [pruneToolResultWithCap] at h
  split at h
  · cases Option.some.inj h
  rename_i hcap
  refine ⟨Nat.pos_of_ne_zero hcap, ?_⟩
  have hb := capHeadBudget_le cap false
  cases Nat.lt_or_ge cap result.length with
  | inl hlt =>
    rw [pruneImpl_long hlt hb] at h
    rw [← Option.some.inj (Option.some.inj h), capNote]
    simp only [List.length_append, List.length_take, List.length_drop]
    omega
  | inr hle =>
    rw [pruneImpl_short hle] at h
    cases Option.some.inj h

theorem prune_again {pruned other : Text} (h : pruneToolResultWithCap result toolName false cap =
    some (some pruned)) :
    pruneToolResultWithCap pruned other false cap = some none ↔ pruned.length ≤ cap := by
  obtain ⟨hcap, -⟩ := length_pruned h
  rw [pruneToolResultWithCap, if_neg (by omega)]
  cases Nat.lt_or_ge cap pruned.length with
  | inl hlt =>
    simp only [pruneImpl_long hlt (capHeadBudget_le cap false)]
    exact iff_of_false (fun he => by cases Option.some.inj he) (Nat.not_le_of_lt hlt)
  | inr hle => exact iff_of_true (pruneImpl_short hle) hle

theorem same_of_matches (h : capPruneMatchesRecompute cap result.length = true) :
    (pruneToolResultWithCap result toolName false cap).map (fun p => p.getD result) =
      (pruneToolResult result toolName false).map fun p => p.getD result := by
  simp only [capPruneMatchesRecompute] at h
  split at h
  · rename_i hgate hrecompute
    have hshort : result.length ≤ maxToolResultInlineChars := by simpa using hrecompute
    have hcap : pruneToolResultWithCap result toolName false cap = some none := by
      rw [pruneToolResultWithCap]
      split
      · rfl
      · rename_i hne
        exact pruneImpl_short (by simpa [hne] using hgate)
    rw [hcap, pruneToolResult, pruneImpl_short hshort]
  · rename_i hgate hrecompute
    have hbudget : capHeadBudget cap false = pruneHeadChars := beq_iff_eq.mp h
    obtain ⟨hne, hlt⟩ : cap ≠ 0 ∧ cap < result.length := by simpa using hgate
    have hlong : maxToolResultInlineChars < result.length := by simpa using hrecompute
    have hb := capHeadBudget_le cap false
    rw [hbudget] at hb
    rw [pruneToolResultWithCap, if_neg hne]
    simp only [hbudget]
    rw [pruneImpl_long hlt hb, pruneToolResult, pruneImpl_long hlong (by decide)]
    rfl
  · cases h

/-- A turn without a recorded projection shows the model what the gate has shown it. -/
theorem modelFacingContent_of_matches {turn : ConversationTurn} (hrole : turn.role = "tool".toList)
    (hnone : turn.toolResultProjection = none)
    (h : capPruneMatchesRecompute cap turn.content.length = true) :
    modelFacingContent turn = (pruneToolResultWithCap turn.content (turn.toolName.getD "tool".toList)
      false cap).map fun p => p.getD turn.content := by
  rw [modelFacingContent, if_neg (not_not_intro hrole), hnone, same_of_matches h]

/-- Any text whose length is a word, any tool name, any cap. -/
theorem prune_agrees (hr : result.length < 2 ^ 64) : Agrees result toolName cap where
  defined := by
    refine ⟨?_, pruneImpl_isSome (by decide)⟩
    rw [pruneToolResultWithCap]
    split
    · rfl
    · exact pruneImpl_isSome (capHeadBudget_le cap false)
  same := same_of_matches
  again pruned other hn h := by
    obtain ⟨hcap, hlen⟩ := length_pruned h
    have hnote : (capNote result toolName cap).length ≤ 194 := length_capNote_le hr hn
    have hbudget : capHeadBudget cap false + capHeadBudget cap false ≤ cap - 256 := by
      have hhint : (hintText false).length = 0 := rfl
      rw [capHeadBudget, hhint]
      omega
    rw [prune_again h, hlen]
    constructor
    · omega
    · omega

/-- A hundred characters under a cap of fifty. -/
theorem prune_agrees_short : Agrees (List.replicate 100 'a') "exec".toList 50 :=
  prune_agrees (by rw [List.length_replicate]; omega)

/-- A cap that is too small for the note is exceeded by the note alone. -/
theorem prune_again_not :
    ∃ pruned, pruneToolResultWithCap "ab".toList "exec".toList false 1 = some (some pruned) ∧
      pruneToolResultWithCap pruned "exec".toList false 1 ≠ some none := by
  obtain ⟨pruned, hp⟩ : ∃ pruned,
      pruneToolResultWithCap "ab".toList "exec".toList false 1 = some (some pruned) := ⟨_, rfl⟩
  refine ⟨pruned, hp, fun h => ?_⟩
  have hle := (prune_again hp).mp h
  rw [(length_pruned hp).2, capNote, length_note] at hle
  omega

end NemesisBot.Prune
