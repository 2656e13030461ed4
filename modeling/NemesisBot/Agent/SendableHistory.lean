import NemesisBot.Agent.ToolPairs

/-! When the repaired history is one that a provider accepts and nothing real is lost. -/
namespace NemesisBot.Agent

/-! What each pass establishes, and the lists it leaves alone. -/

theorem mem_answers_keepLast (id : String) (ms : List ConversationTurn) :
    id ∈ answers (keepLast ms) ↔ id ∈ answers ms := by
  induction ms with
  | nil => rfl
  | cons m rest ih =>
    cases h : answerOf m with
    | none => simp [keepLast, h, answers_cons, ih]
    | some id' =>
      by_cases hid : id' ∈ answers rest
      · simp only [keepLast, h, hid, if_true, ih, answers_cons, Option.toList_some,
          List.singleton_append, List.mem_cons, iff_or_self]
        rintro rfl
        exact hid
      · simp [keepLast, h, hid, answers_cons, ih]

theorem answers_keepLast_nodup (ms : List ConversationTurn) : (answers (keepLast ms)).Nodup := by
  induction ms with
  | nil => simp [keepLast]
  | cons m rest ih =>
    cases h : answerOf m with
    | none => simpa [keepLast, h, answers_cons] using ih
    | some id =>
      by_cases hid : id ∈ answers rest
      · simpa [keepLast, h, hid] using ih
      · simpa [keepLast, h, hid, answers_cons, mem_answers_keepLast] using ih

theorem keepLast_of_nodup {ms : List ConversationTurn} (h : (answers ms).Nodup) :
    keepLast ms = ms := by
  induction ms with
  | nil => rfl
  | cons m rest ih =>
    cases hm : answerOf m with
    | none => simp [keepLast, hm, ih (by simpa [answers_cons, hm] using h)]
    | some id =>
      simp only [answers_cons, hm, Option.toList_some, List.singleton_append,
        List.nodup_cons] at h
      simp [keepLast, hm, h.1, ih h.2]

theorem dropOrphans_eq_iff (seen : List String) (ms : List ConversationTurn) :
    dropOrphans seen ms = ms ↔
      ∀ p t s, ms = p ++ t :: s → Follows (seen ++ calls p) t := by
  constructor
  · rintro h p t s rfl
    by_contra hf
    have hlen := congrArg List.length h
    have hle : ∀ seen (ns : List ConversationTurn), (dropOrphans seen ns).length ≤ ns.length := by
      intro seen ns
      induction ns generalizing seen with
      | nil => simp [dropOrphans]
      | cons n ns ih =>
        by_cases hn : Follows seen n
        · rw [(dropOrphans_cons seen n ns).1 hn]
          exact Nat.succ_le_succ (ih _)
        · rw [(dropOrphans_cons seen n ns).2 hn]
          exact Nat.le_succ_of_le (ih _)
    have hp := hle seen p
    have hs := hle (seen ++ calls p) s
    rw [dropOrphans_append, (dropOrphans_cons _ t s).2 hf] at hlen
    simp only [List.length_append, List.length_cons] at hlen
    omega
  · intro h
    induction ms generalizing seen with
    | nil => rfl
    | cons m rest ih =>
      have hm := h [] m rest rfl
      rw [calls_nil, List.append_nil] at hm
      rw [(dropOrphans_cons seen m rest).1 hm, ih]
      rintro p t s rfl
      simpa using h (m :: p) t s rfl

theorem dropOrphans_idem (seen : List String) (ms : List ConversationTurn) :
    dropOrphans seen (dropOrphans seen ms) = dropOrphans seen ms := by
  induction ms generalizing seen with
  | nil => rfl
  | cons m rest ih =>
    by_cases h : Follows seen m
    · rw [(dropOrphans_cons seen m rest).1 h, (dropOrphans_cons seen m _).1 h, ih]
    · rw [(dropOrphans_cons seen m rest).2 h, ih]

theorem answers_dropOrphans_sublist (seen : List String) (ms : List ConversationTurn) :
    (answers (dropOrphans seen ms)).Sublist (answers ms) := by
  induction ms generalizing seen with
  | nil => exact List.Sublist.refl _
  | cons m rest ih =>
    by_cases h : Follows seen m
    · rw [(dropOrphans_cons seen m rest).1 h, answers_cons, answers_cons]
      exact (ih _).append_left _
    · rw [(dropOrphans_cons seen m rest).2 h, answers_cons]
      exact (ih _).trans (List.sublist_append_right _ _)

/-- An id that was called before the list keeps its answers. -/
theorem mem_answers_dropOrphans {seen : List String} {id : String} (h : id ∈ seen)
    (ms : List ConversationTurn) :
    id ∈ answers (dropOrphans seen ms) ↔ id ∈ answers ms := by
  induction ms generalizing seen with
  | nil => rfl
  | cons m rest ih =>
    by_cases hm : Follows seen m
    · rw [(dropOrphans_cons seen m rest).1 hm, answers_cons, answers_cons, List.mem_append,
        List.mem_append, ih (by simp [h])]
    · rw [(dropOrphans_cons seen m rest).2 hm, ih h, answers_cons, List.mem_append]
      constructor
      · exact .inr
      · rintro (hid | hid)
        · exact absurd ((follows_of_answerOf (by simpa using hid)).mpr h) hm
        · exact hid

theorem answers_fill (m : ConversationTurn) (rest : List ConversationTurn) :
    answers (fill (m :: rest)) =
      (answerOf m).toList ++ ((callsOf m).filter (· ∉ answers rest) ++ answers (fill rest)) := by
  rw [fill, answers_cons, answers_append, answers_missing]

theorem mem_answers_fill {id : String} {ms : List ConversationTurn} (h : id ∈ answers ms) :
    id ∈ answers (fill ms) := by
  induction ms with
  | nil => exact h
  | cons m rest ih =>
    rw [answers_cons, List.mem_append] at h
    rw [answers_fill, List.mem_append, List.mem_append]
    cases h with
    | inl h => exact .inl h
    | inr h => exact .inr (.inr (ih h))

theorem fill_append_tools {ts : List ConversationTurn} (h : ∀ t ∈ ts, t.role = "tool")
    (ms : List ConversationTurn) : fill (ts ++ ms) = ts ++ fill ms := by
  induction ts with
  | nil => rfl
  | cons t ts ih =>
    rw [List.cons_append, fill, missing_of_tool (h t List.mem_cons_self), List.nil_append,
      ih fun t ht => h t (List.mem_cons_of_mem _ ht), List.cons_append]

/-- Behind each message of a filled list stands an answer to each of its calls. -/
theorem callsOf_answered (m : ConversationTurn) (rest : List ConversationTurn) {id : String}
    (h : id ∈ callsOf m) : id ∈ answers (missing m rest ++ fill rest) := by
  rw [answers_append, answers_missing, List.mem_append]
  by_cases hid : id ∈ answers rest
  · exact .inr (mem_answers_fill hid)
  · exact .inl (List.mem_filter.mpr ⟨h, by simpa using hid⟩)

theorem missing_eq_nil {m : ConversationTurn} {rest : List ConversationTurn}
    (h : ∀ id ∈ callsOf m, id ∈ answers rest) : missing m rest = [] := by
  by_cases hr : m.role = "assistant"
  · simpa [missing, callsOf, hr] using h
  · simp [missing, hr]

theorem fill_idem (ms : List ConversationTurn) : fill (fill ms) = fill ms := by
  induction ms with
  | nil => rfl
  | cons m rest ih =>
    rw [fill, fill, fill_append_tools (fun t ht => role_of_mem_missing ht), ih,
      missing_eq_nil fun id hid => callsOf_answered m rest hid, List.nil_append]

theorem fill_answered (ms p s : List ConversationTurn) (m : ConversationTurn)
    (h : fill ms = p ++ m :: s) : ∀ id ∈ callsOf m, id ∈ answers s := by
  induction ms generalizing p with
  | nil => simp [fill] at h
  | cons n rest ih =>
    cases p with
    | nil =>
      obtain ⟨rfl, rfl⟩ : n = m ∧ missing n rest ++ fill rest = s := by simpa [fill] using h
      exact fun id hid => callsOf_answered n rest hid
    | cons n' p =>
      obtain ⟨-, h⟩ : n = n' ∧ missing n rest ++ fill rest = p ++ m :: s := by
        simpa [fill] using h
      rcases List.append_eq_append_iff.mp h with ⟨q, -, hq⟩ | ⟨q, hq, hs⟩
      · exact ih q hq
      · cases q with
        | nil => exact ih [] (by simpa using hs.symm)
        | cons t q =>
          obtain ⟨rfl, -⟩ : m = t ∧ s = q ++ fill rest := by simpa using hs
          have ht : m ∈ missing n rest := by simp [hq]
          simp [callsOf_of_tool (role_of_mem_missing ht)]

theorem dropOrphans_missing (seen : List String) (m : ConversationTurn)
    (rest : List ConversationTurn) (h : callsOf m ⊆ seen) :
    dropOrphans seen (missing m rest) = missing m rest := by
  apply (dropOrphans_eq_iff _ _).mpr
  intro p t s hs ht
  have hmem : t ∈ missing m rest := by simp [hs]
  unfold missing at hmem
  split at hmem
  · obtain ⟨tc, htc, rfl⟩ := List.mem_map.mp hmem
    have hid : tc.id ∈ callsOf m := by
      rw [callsOf, if_pos ‹_›]
      exact List.mem_map_of_mem (List.mem_filter.mp htc).1
    exact ⟨tc.id, List.mem_append_left _ (h hid), rfl⟩
  · simp at hmem

/-- Filling adds each answer behind its call. -/
theorem dropOrphans_fill {seen : List String} {ms : List ConversationTurn}
    (h : dropOrphans seen ms = ms) : dropOrphans seen (fill ms) = fill ms := by
  induction ms generalizing seen with
  | nil => rfl
  | cons m rest ih =>
    have hsplit := (dropOrphans_eq_iff seen (m :: rest)).mp h
    have hm : Follows seen m := by simpa using hsplit [] m rest rfl
    have hrest : dropOrphans (seen ++ callsOf m) rest = rest := by
      rw [(dropOrphans_cons seen m rest).1 hm] at h
      exact List.tail_eq_of_cons_eq h
    rw [fill, (dropOrphans_cons seen m _).1 hm, dropOrphans_append, dropOrphans_missing,
      calls_missing, List.append_nil, ih hrest]
    exact List.subset_append_right _ _

/-! The number of answers to one id in the repaired list. -/

/-- Calls of `id` that no later message answers. -/
def unanswered (id : String) : List ConversationTurn → Nat
  | [] => 0
  | m :: rest => (if id ∈ answers rest then 0 else (callsOf m).count id) + unanswered id rest

theorem count_answers_fill (id : String) (ms : List ConversationTurn) :
    (answers (fill ms)).count id = (answers ms).count id + unanswered id ms := by
  induction ms with
  | nil => rfl
  | cons m rest ih =>
    have hf : ((callsOf m).filter (· ∉ answers rest)).count id =
        if id ∈ answers rest then 0 else (callsOf m).count id := by
      split
      · apply List.count_eq_zero.mpr
        simp [*]
      · exact List.count_filter (by simpa using ‹_›)
    rw [answers_fill, answers_cons, unanswered, List.count_append, List.count_append,
      List.count_append, ih, hf]
    omega

theorem unanswered_keepLast (id : String) (ms : List ConversationTurn) :
    unanswered id (keepLast ms) = unanswered id ms := by
  induction ms with
  | nil => rfl
  | cons m rest ih =>
    cases h : answerOf m with
    | none => simp [keepLast, h, unanswered, mem_answers_keepLast, ih]
    | some id' =>
      have hc := callsOf_of_tool (role_of_answerOf h)
      by_cases hid : id' ∈ answers rest
      · simp [keepLast, h, hid, unanswered, hc, ih]
      · simp [keepLast, h, hid, unanswered, hc, ih]

theorem unanswered_dropOrphans (id : String) (seen : List String) (ms : List ConversationTurn) :
    unanswered id (dropOrphans seen ms) = unanswered id ms := by
  induction ms generalizing seen with
  | nil => rfl
  | cons m rest ih =>
    by_cases hm : Follows seen m
    · rw [(dropOrphans_cons seen m rest).1 hm, unanswered, unanswered, ih]
      by_cases hid : id ∈ callsOf m
      · simp only [mem_answers_dropOrphans (List.mem_append_right seen hid)]
      · simp [List.count_eq_zero.mpr hid]
    · rw [(dropOrphans_cons seen m rest).2 hm, unanswered, ih,
        callsOf_of_tool (role_of_not_follows hm)]
      simp

theorem unanswered_le (id : String) (ms : List ConversationTurn) :
    unanswered id ms ≤ (calls ms).count id := by
  induction ms with
  | nil => simp [unanswered]
  | cons m rest ih =>
    rw [unanswered, calls_cons, List.count_append]
    split <;> omega

theorem unanswered_of_not_mem {id : String} {ms : List ConversationTurn} (h : id ∉ answers ms) :
    unanswered id ms = (calls ms).count id := by
  induction ms with
  | nil => rfl
  | cons m rest ih =>
    have hr : id ∉ answers rest := fun hid => h (by simp [answers_cons, hid])
    rw [unanswered, calls_cons, List.count_append, if_neg hr, ih hr]

/-- An answer that follows a call leaves that call out of the count. -/
theorem unanswered_lt {id : String} {seen : List String} {ms : List ConversationTurn}
    (hs : id ∉ seen) (hid : id ∈ answers (dropOrphans seen ms)) :
    unanswered id ms < (calls ms).count id := by
  induction ms generalizing seen with
  | nil => simp [dropOrphans] at hid
  | cons m rest ih =>
    have hle := unanswered_le id rest
    rw [unanswered, calls_cons, List.count_append]
    by_cases hm : Follows seen m
    · rw [(dropOrphans_cons seen m rest).1 hm, answers_cons, List.mem_append] at hid
      have hr : id ∈ answers (dropOrphans (seen ++ callsOf m) rest) := by
        cases hid with
        | inl h => exact absurd ((follows_of_answerOf (by simpa using h)).mp hm) hs
        | inr h => exact h
      by_cases hc : id ∈ callsOf m
      · have hpos := List.count_pos_iff.mpr hc
        rw [if_pos ((answers_dropOrphans_sublist _ _).mem hr)]
        omega
      · have hlt := ih (by simp [hs, hc]) hr
        rw [List.count_eq_zero.mpr hc]
        split <;> omega
    · rw [(dropOrphans_cons seen m rest).2 hm] at hid
      have hlt := ih hs hid
      rw [callsOf_of_tool (role_of_not_follows hm)]
      simpa using hlt

/-! What the repaired list promises. -/

/-- In `… call q t s` the answer `t` is the only one to `id` after the call. -/
def SoleAfterCall (id : String) (q s : List ConversationTurn) : Prop :=
  id ∉ answers q ∧ id ∉ answers s

/-- In `… call q t s` the answer `t` is the only one to `id` up to the next call of `id`. -/
def SoleUpToNextCall (id : String) (q s : List ConversationTurn) : Prop :=
  id ∉ calls q ∧ id ∉ answers q ∧
    ∃ s₁ s₂, s = s₁ ++ s₂ ∧ id ∉ answers s₁ ∧ (s₂ = [] ∨ id ∈ calls (s₂.take 1))

/-- `p` calls `id` in `m`, and `t` is the only answer to that call. -/
structure SoleResult (sole : String → List ConversationTurn → List ConversationTurn → Prop)
    (ms : List ConversationTurn) (id : String) (p : List ConversationTurn) (t : ConversationTurn)
    (s : List ConversationTurn) : Prop where
  split : ms = p ++ t :: s
  answers_id : answerOf t = some id
  called : ∃ p₀ m q, p = p₀ ++ m :: q ∧ id ∈ callsOf m ∧ sole id q s

structure Sendable (sole : String → List ConversationTurn → List ConversationTurn → Prop)
    (ms out : List ConversationTurn) : Prop where
  after_call : ∀ p t s, out = p ++ t :: s → t.role = "tool" →
    ∃ id ∈ calls p, t.toolCallId = some id
  answered : ∀ p m s, out = p ++ m :: s → ∀ id ∈ callsOf m, id ∈ answers s
  distinct : (answers out).Nodup
  non_tool : nonTool out = nonTool ms
  kept : ∀ id p t s, SoleResult sole ms id p t s →
    ∃ p' s', out = p' ++ t :: s' ∧ nonTool p' = nonTool p ∧ nonTool s' = nonTool s
  stable : repairToolMessagePairs out = out

/-- An id that is called more than once has a result after each of its calls. -/
def RepeatedAnswered (ms : List ConversationTurn) : Prop :=
  ∀ id, 2 ≤ (calls ms).count id →
    ∀ p m s, ms = p ++ m :: s → id ∈ callsOf m → id ∈ answers s

/-- No result that stands alone up to the next call of its id is followed by another. -/
def NoneReplaced (ms : List ConversationTurn) : Prop :=
  ∀ id p t s, SoleResult SoleUpToNextCall ms id p t s → id ∉ answers s

theorem unanswered_eq_zero_iff (id : String) (ms : List ConversationTurn) :
    unanswered id ms = 0 ↔ ∀ p m s, ms = p ++ m :: s → id ∈ callsOf m → id ∈ answers s := by
  induction ms with
  | nil => simp [unanswered]
  | cons m rest ih =>
    rw [unanswered, Nat.add_eq_zero_iff, ih]
    constructor
    · rintro ⟨h, hr⟩ p n s hs hn
      cases p with
      | nil =>
        obtain ⟨rfl, rfl⟩ : m = n ∧ rest = s := by simpa using hs
        by_contra hid
        rw [if_neg hid, List.count_eq_zero] at h
        exact h hn
      | cons n' p =>
        obtain ⟨-, hs⟩ : m = n' ∧ rest = p ++ n :: s := by simpa using hs
        exact hr p n s hs hn
    · intro h
      constructor
      · split
        · rfl
        · apply List.count_eq_zero.mpr
          intro hid
          exact absurd (h [] m rest rfl hid) ‹_›
      · rintro p n s rfl hn
        exact h (m :: p) n s rfl hn

/-- The answers are distinct exactly when no repeated id lacks one behind a call. -/
theorem distinct_iff (ms : List ConversationTurn) :
    (answers (repairToolMessagePairs ms)).Nodup ↔ RepeatedAnswered ms := by
  have hkept : ∀ id, (answers (dropOrphans [] (keepLast ms))).count id ≤ 1 := fun id =>
    List.nodup_iff_count_le_one.mp
      ((answers_keepLast_nodup ms).sublist (answers_dropOrphans_sublist [] _)) id
  have hun : ∀ id, unanswered id (dropOrphans [] (keepLast ms)) = unanswered id ms := fun id => by
    rw [unanswered_dropOrphans, unanswered_keepLast]
  have hcalls : calls (dropOrphans [] (keepLast ms)) = calls ms := by
    rw [← calls_nonTool, nonTool_dropOrphans, calls_nonTool, calls_keepLast]
  rw [List.nodup_iff_count_le_one, repairToolMessagePairs_eq]
  simp only [RepeatedAnswered, ← unanswered_eq_zero_iff]
  apply forall_congr'
  intro id
  rw [count_answers_fill, hun]
  have hk := hkept id
  have hle := unanswered_le id ms
  by_cases hid : id ∈ answers (dropOrphans [] (keepLast ms))
  · have hpos := List.count_pos_iff.mpr hid
    have hlt := unanswered_lt (by simp) hid
    rw [unanswered_keepLast, calls_keepLast] at hlt
    constructor
    · intro h _
      omega
    · intro h
      by_cases h2 : 2 ≤ (calls ms).count id
      · have := h h2
        omega
      · omega
  · have hall := unanswered_of_not_mem hid
    rw [hun, hcalls] at hall
    rw [List.count_eq_zero.mpr hid]
    constructor
    · intro h h2
      omega
    · intro h
      by_cases h2 : 2 ≤ (calls ms).count id
      · have := h h2
        omega
      · omega

theorem keepLast_append (ps ms : List ConversationTurn) :
    ∃ ps', keepLast (ps ++ ms) = ps' ++ keepLast ms ∧ nonTool ps' = nonTool ps := by
  induction ps with
  | nil => exact ⟨[], rfl, rfl⟩
  | cons m rest ih =>
    obtain ⟨ps', h, hn⟩ := ih
    cases hm : answerOf m with
    | none =>
      refine ⟨m :: ps', ?_, ?_⟩
      · simp [keepLast, hm, h]
      · rw [nonTool_cons, hn, ← nonTool_cons]
    | some id =>
      have hr := role_of_answerOf hm
      by_cases hid : id ∈ answers (rest ++ ms)
      · refine ⟨ps', ?_, ?_⟩
        · rw [List.cons_append, keepLast, hm]
          simp only [hid, if_true, h]
        · simpa [nonTool, hr] using hn
      · refine ⟨m :: ps', ?_, ?_⟩
        · rw [List.cons_append, keepLast, hm]
          simp only [hid, if_false, h, List.cons_append]
        · rw [nonTool_cons, hn, ← nonTool_cons]

theorem fill_append (ps ms : List ConversationTurn) :
    ∃ ps', fill (ps ++ ms) = ps' ++ fill ms ∧ nonTool ps' = nonTool ps := by
  induction ps with
  | nil => exact ⟨[], rfl, rfl⟩
  | cons m rest ih =>
    obtain ⟨ps', h, hn⟩ := ih
    refine ⟨m :: (missing m (rest ++ ms) ++ ps'), ?_, ?_⟩
    · rw [List.cons_append, fill, h, List.cons_append, List.append_assoc]
    · rw [nonTool_cons, nonTool_append, nonTool_missing, List.nil_append, hn, ← nonTool_cons]

/-- The last answer to an id that was called before it stays in its place. -/
theorem repair_keeps_last {ms p s : List ConversationTurn} {t : ConversationTurn} {id : String}
    (hs : ms = p ++ t :: s) (ht : answerOf t = some id) (hc : id ∈ calls p)
    (hlast : id ∉ answers s) :
    ∃ p' s', repairToolMessagePairs ms = p' ++ t :: s' ∧ nonTool p' = nonTool p ∧
      nonTool s' = nonTool s := by
  subst hs
  have hr := role_of_answerOf ht
  obtain ⟨p₁, h₁, hn₁⟩ := keepLast_append p (t :: s)
  have hcalls : calls p₁ = calls p := by rw [← calls_nonTool, hn₁, calls_nonTool]
  have hf : Follows ([] ++ calls p₁) t := by
    rw [follows_of_answerOf ht, List.nil_append, hcalls]
    exact hc
  have h₂ : dropOrphans [] (keepLast (p ++ t :: s)) = dropOrphans [] p₁ ++
      t :: dropOrphans ([] ++ calls p₁ ++ callsOf t) (keepLast s) := by
    rw [h₁, dropOrphans_append, keepLast, ht]
    simp only [hlast, if_false]
    rw [(dropOrphans_cons _ t _).1 hf]
  obtain ⟨p₃, h₃, hn₃⟩ := fill_append (dropOrphans [] p₁)
    (t :: dropOrphans ([] ++ calls p₁ ++ callsOf t) (keepLast s))
  refine ⟨p₃, fill (dropOrphans ([] ++ calls p₁ ++ callsOf t) (keepLast s)), ?_, ?_, ?_⟩
  · rw [repairToolMessagePairs_eq, h₂, h₃, fill, missing_of_tool hr, List.nil_append]
  · rw [hn₃, nonTool_dropOrphans, hn₁]
  · rw [nonTool_fill, nonTool_dropOrphans, nonTool_keepLast]

theorem split_at_last {id : String} {s : List ConversationTurn} (h : id ∈ answers s) :
    ∃ s₀ t s₁, s = s₀ ++ t :: s₁ ∧ answerOf t = some id ∧ id ∉ answers s₁ := by
  induction s with
  | nil => simp at h
  | cons m rest ih =>
    by_cases hid : id ∈ answers rest
    · obtain ⟨s₀, t, s₁, rfl, ht⟩ := ih hid
      exact ⟨m :: s₀, t, s₁, rfl, ht⟩
    · have hm : answerOf m = some id := by simpa [answers_cons, hid] using h
      exact ⟨[], m, rest, rfl, hm, hid⟩

theorem rest_unique {id : String} {p q s r : List ConversationTurn} {t u : ConversationTurn}
    (hn : (answers (p ++ t :: s)).Nodup) (h : p ++ t :: s = q ++ u :: r)
    (ht : answerOf t = some id) (hu : answerOf u = some id) : s = r := by
  have hfirst : ∀ {p s : List ConversationTurn} {t : ConversationTurn},
      (answers (p ++ t :: s)).Nodup → answerOf t = some id → id ∉ answers s := by
    intro p s t hn ht
    rw [answers_append, answers_cons, ht] at hn
    exact (List.nodup_cons.mp hn.of_append_right).1
  rcases List.append_eq_append_iff.mp h with ⟨a, -, ha⟩ | ⟨a, -, ha⟩
  · cases a with
    | nil => exact (List.cons.inj ha).2
    | cons x a =>
      obtain ⟨-, hs⟩ : t = x ∧ s = a ++ u :: r := by simpa using ha
      exact absurd (by simp [hs, answers_cons, hu]) (hfirst hn ht)
  · cases a with
    | nil => exact (List.cons.inj ha).2.symm
    | cons x a =>
      obtain ⟨-, hr⟩ : u = x ∧ r = a ++ t :: s := by simpa using ha
      rw [h] at hn
      exact absurd (by simp [hr, answers_cons, ht]) (hfirst hn hu)

theorem mem_of_next_call {id : String} {s₀ s₁ s₂ r : List ConversationTurn}
    {t : ConversationTurn} (h : s₀ ++ t :: r = s₁ ++ s₂) (ht : answerOf t = some id)
    (h₁ : id ∉ answers s₁) (h₂ : s₂ = [] ∨ id ∈ calls (s₂.take 1)) : id ∈ calls s₀ := by
  have htool := callsOf_of_tool (role_of_answerOf ht)
  rcases List.append_eq_append_iff.mp h with ⟨a, ha, hs⟩ | ⟨a, ha, hs⟩
  · cases a with
    | nil =>
      subst hs
      simp [htool] at h₂
    | cons x a =>
      obtain ⟨rfl, -⟩ : t = x ∧ r = a ++ s₂ := by simpa using hs
      exact absurd (by simp [ha, answers_cons, ht]) h₁
  · cases a with
    | nil =>
      subst hs
      simp [htool] at h₂
    | cons x a =>
      have hx : id ∈ callsOf x := by simpa [hs] using h₂
      simp [ha, hx]

theorem SoleResult.mem_calls {sole : String → List ConversationTurn → List ConversationTurn → Prop}
    {ms p s : List ConversationTurn} {id : String} {t : ConversationTurn}
    (h : SoleResult sole ms id p t s) : id ∈ calls p := by
  obtain ⟨p₀, m, q, rfl, hm, -⟩ := h.called
  simp [hm]

/-- A result that another one replaces is gone from its place. -/
theorem noneReplaced_of_kept {ms : List ConversationTurn}
    (h : Sendable SoleUpToNextCall ms (repairToolMessagePairs ms)) : NoneReplaced ms := by
  intro id p t s hsole hid
  obtain ⟨s₀, u, r, rfl, hu, hr⟩ := split_at_last hid
  obtain ⟨p', s', hout, -, hs'⟩ := h.kept id p t _ hsole
  have hsplit' : ms = (p ++ t :: s₀) ++ u :: r := by simpa using hsole.split
  obtain ⟨q', r', hout', -, hr'⟩ := repair_keeps_last hsplit' hu (by simp [hsole.mem_calls]) hr
  have hd := h.distinct
  rw [hout] at hd hout'
  have hrest := rest_unique hd hout' hsole.answers_id hu
  obtain ⟨p₀, m, q, -, -, -, -, s₁, s₂, hsplit, h₁, h₂⟩ := hsole.called
  have hcall := mem_of_next_call hsplit hu h₁ h₂
  rw [hrest, hr', nonTool_append, nonTool_cons u] at hs'
  have hnil : nonTool s₀ = [] := by
    have hlen := congrArg List.length hs'
    simp only [List.length_append] at hlen
    exact List.eq_nil_of_length_eq_zero (by omega)
  rw [← calls_nonTool, hnil] at hcall
  simp at hcall

theorem sendable_repair {sole : String → List ConversationTurn → List ConversationTurn → Prop}
    {ms : List ConversationTurn} (hrep : RepeatedAnswered ms)
    (hlast : ∀ id p t s, SoleResult sole ms id p t s → id ∉ answers s) :
    Sendable sole ms (repairToolMessagePairs ms) := by
  have hd := (distinct_iff ms).mpr hrep
  have horph : dropOrphans [] (repairToolMessagePairs ms) = repairToolMessagePairs ms := by
    rw [repairToolMessagePairs_eq]
    exact dropOrphans_fill (dropOrphans_idem _ _)
  constructor
  · intro p t s hs ht
    simpa using (dropOrphans_eq_iff [] _).mp horph p t s hs ht
  · intro p m s hs
    rw [repairToolMessagePairs_eq] at hs
    exact fill_answered _ p s m hs
  · exact hd
  · rw [repairToolMessagePairs_eq, nonTool_fill, nonTool_dropOrphans, nonTool_keepLast]
  · intro id p t s hsole
    exact repair_keeps_last hsole.split hsole.answers_id hsole.mem_calls (hlast id p t s hsole)
  · have h := repairToolMessagePairs_eq (repairToolMessagePairs ms)
    rw [keepLast_of_nodup hd, horph] at h
    rw [h, repairToolMessagePairs_eq, fill_idem]

/-- A repaired list is sendable exactly when each repeated id is answered behind each of its
calls; if a result counts as the only one up to the next call, it must also be the last. -/
theorem repair_sendable_iff (ms : List ConversationTurn) :
    (Sendable SoleAfterCall ms (repairToolMessagePairs ms) ↔ RepeatedAnswered ms) ∧
      (Sendable SoleUpToNextCall ms (repairToolMessagePairs ms) ↔
        RepeatedAnswered ms ∧ NoneReplaced ms) := by
  constructor
  · constructor
    · exact fun h => (distinct_iff ms).mp h.distinct
    · intro h
      apply sendable_repair h
      intro id p t s hsole
      obtain ⟨p₀, m, q, -, -, hs⟩ := hsole.called
      exact hs.2
  · constructor
    · exact fun h => ⟨(distinct_iff ms).mp h.distinct, noneReplaced_of_kept h⟩
    · rintro ⟨h, hlast⟩
      exact sendable_repair h hlast

def assistantCall (id : String) : ConversationTurn :=
  ⟨"assistant", "", [⟨id, "exec", ""⟩], none, "", none, none, none, []⟩

/-- Two calls with one id and no result get two synthetic results with that id. -/
theorem repeated_call_not_sendable :
    ¬ Sendable SoleAfterCall [assistantCall "a", assistantCall "a"]
      (repairToolMessagePairs [assistantCall "a", assistantCall "a"]) ∧
    ¬ Sendable SoleUpToNextCall [assistantCall "a", assistantCall "a"]
      (repairToolMessagePairs [assistantCall "a", assistantCall "a"]) := by
  have h : ¬ (answers (repairToolMessagePairs [assistantCall "a", assistantCall "a"])).Nodup := by
    decide
  exact ⟨fun hs => h hs.distinct, fun hs => h hs.distinct⟩

end NemesisBot.Agent
