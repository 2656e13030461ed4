import NemesisBot.Security.CommandQuoting

/-! Approval memory: the pattern an always-allow answer writes, and what it later covers. -/
namespace NemesisBot.ApprovalRules
open NemesisBot.Strings NemesisBot.Command

def isCommandOp (op : String) : Bool := op == "process_exec" || op == "process_spawn"

def patternFor (op : String) (target : Text) : Text :=
  let target := trim target
  if target = [] then []
  else if isCommandOp op then
    if (commandSegments target).length > 1 then []
    else
      let reduced := reduceCommand target
      if reduced = [] then []
      else if starSuffix <:+ reduced then reduced
      else reduced ++ starSuffix
  else target

/-- The closure `prefix_hits`. -/
def prefixHits (prefixTokens : List Text) (seg : Text) : Bool :=
  decide (prefixTokens <+: stripEnvTokens (tokenizeCommand seg))

def matchesRule (ruleOp : String) (rulePattern : Text) (op : String) (target : Text) : Bool :=
  if ruleOp != op || rulePattern.isEmpty || target.isEmpty then false
  else if rulePattern == ['*'] then false
  else match stripSuffix starSuffix rulePattern with
    | some pre =>
      let prefixTokens := tokenizeCommand pre
      if prefixTokens.isEmpty then false
      else if isCommandOp ruleOp then
        let segments := commandSegments target
        !segments.isEmpty && segments.all (prefixHits prefixTokens)
      else prefixHits prefixTokens target
    | none =>
      if isCommandOp ruleOp then
        tokenizeCommand rulePattern == stripEnvTokens (tokenizeCommand target)
      else rulePattern == target

/-- Every top-level segment of the command, its environment prefix removed, starts with
the tokens, and there is one. -/
def Covers (tokens : List Text) (target : Text) : Prop :=
  commandSegments target ≠ [] ∧
    ∀ seg ∈ commandSegments target, tokens <+: stripEnvTokens (tokenizeCommand seg)

instance (tokens : List Text) (target : Text) : Decidable (Covers tokens target) :=
  inferInstanceAs (Decidable (_ ∧ _))

/-- The memory written for `t0` covers `t0`, and exactly the commands that `t0`'s kept
tokens cover. -/
def RemembersItself (op : String) (t0 : Text) : Prop :=
  matchesRule op (patternFor op t0) op t0 = true ∧
    ∀ t1, matchesRule op (patternFor op t0) op t1 = true ↔ Covers (keptTokens (trim t0)) t1

/-- The command is no longer than its kept tokens and ends in a literal star argument. -/
def EndsInStar (cmd : Text) : Prop :=
  keptTokens cmd = stripEnvTokens (tokenizeCommand cmd) ∧ 2 ≤ (keptTokens cmd).length ∧
    (keptTokens cmd).getLast? = some ['*']

theorem commandSegments_nil : commandSegments [] = [] := by decide

theorem covers_nonempty {tokens : List Text} {target : Text} (h : Covers tokens target) :
    target ≠ [] := by
  rintro rfl
  exact h.1 commandSegments_nil

/-- A rule with a starred pattern on a command operation. -/
theorem matchesRule_star {op : String} (hop : isCommandOp op = true) (pre target : Text) :
    matchesRule op (pre ++ starSuffix) op target = true ↔
      tokenizeCommand pre ≠ [] ∧ Covers (tokenizeCommand pre) target := by
  have hne : (pre ++ starSuffix == ['*']) = false := by
    rw [beq_eq_false_iff_ne]
    intro he
    have := congrArg List.length he
    simp [starSuffix] at this
  have hem : (pre ++ starSuffix).isEmpty = false := by simp [starSuffix]
  rw [matchesRule, stripSuffix_append, hne, hem, hop]
  by_cases ht : target = []
  · subst ht
    simp [Covers, commandSegments_nil]
  · by_cases hp : tokenizeCommand pre = []
    · simp [hp]
    · simp [Covers, prefixHits, hp, ht]

/-! What a token list covers determines it. -/

theorem stripEnvTokens_cons {t : Text} (h : isEnvAssignment t = false) (ts : List Text) :
    stripEnvTokens (t :: ts) = t :: ts := by simp [stripEnvTokens, h]

theorem stripEnvTokens_head {tokens : List Text} {t : Text} {ts : List Text}
    (h : stripEnvTokens tokens = t :: ts) : isEnvAssignment t = false := by
  have hh := List.head?_dropWhile_not isEnvAssignment tokens
  rw [stripEnvTokens] at h
  rw [h] at hh
  simpa using hh

theorem covers_quoteCommand {t : Text} (h : isEnvAssignment t = false) (ts tokens : List Text) :
    Covers tokens (quoteCommand (t :: ts)) ↔ tokens <+: t :: ts := by
  rw [Covers, commandSegments_quoteCommand (List.cons_ne_nil t ts)]
  simp [tokenize_quoteCommand, stripEnvTokens_cons h]

/-- Two token lists cover the same commands only if they are equal. -/
theorem eq_of_covers_iff {t : Text} {ts read : List Text} (h : isEnvAssignment t = false)
    (hc : ∀ target, (read ≠ [] ∧ Covers read target) ↔ Covers (t :: ts) target) :
    read = t :: ts := by
  obtain ⟨hne, hr⟩ := (hc (quoteCommand (t :: ts))).mpr
    ((covers_quoteCommand h ts _).mpr List.prefix_rfl)
  have hpre : read <+: t :: ts := (covers_quoteCommand h ts read).mp hr
  cases read with
  | nil => exact absurd rfl hne
  | cons u us =>
    obtain rfl : u = t := (List.cons_prefix_cons.mp hpre).1
    have hback := (hc (quoteCommand (u :: us))).mp
      ⟨List.cons_ne_nil u us, (covers_quoteCommand h us _).mpr List.prefix_rfl⟩
    exact hpre.eq_of_length_le ((covers_quoteCommand h us _).mp hback).length_le

/-! The kept tokens through the pattern text. -/

theorem starSuffix_join_iff {ts : List Text} (hp : ∀ t ∈ ts, Plain t) :
    starSuffix <:+ join space ts ↔ 2 ≤ ts.length ∧ ts.getLast? = some ['*'] := by
  have hnospace {t : Text} (ht : Plain t) : ' ' ∉ t := by
    intro hm
    exact absurd (ht.2 ' ' hm).1 (by decide)
  obtain rfl | ⟨init, t, rfl⟩ := List.eq_nil_or_concat ts
  · simp [join, starSuffix]
  · rw [List.concat_eq_append] at hp ⊢
    have ht := hp t (by simp)
    by_cases hi : init = []
    · subst hi
      simp only [List.nil_append, join, List.length_singleton]
      constructor
      · rintro ⟨p, hps⟩
        exact absurd (hps ▸ by simp [starSuffix] : ' ' ∈ t) (hnospace ht)
      · omega
    · rw [join_concat hi]
      have hlen : 0 < init.length := List.length_pos_iff.mpr hi
      simp only [List.length_append, List.length_singleton, List.getLast?_append,
        List.getLast?_singleton, Option.some_or, Option.some.injEq]
      constructor
      · rintro ⟨p, hps⟩
        refine ⟨by omega, ?_⟩
        obtain ⟨u, c, rfl⟩ : ∃ u c, t = u ++ [c] :=
          ⟨t.dropLast, t.getLast ht.1, (List.dropLast_concat_getLast ht.1).symm⟩
        have hcut : p ++ [' '] ++ ['*'] = join space init ++ space ++ u ++ [c] := by
          simpa [starSuffix] using hps
        obtain ⟨hbefore, hc⟩ := List.append_inj' hcut rfl
        obtain rfl : '*' = c := by simpa using hc
        obtain rfl | ⟨v, d, rfl⟩ := List.eq_nil_or_concat u
        · rfl
        · have hd : p ++ [' '] = (join space init ++ space ++ v) ++ [d] := by
            simpa using hbefore
          obtain ⟨-, hd⟩ := List.append_inj' hd rfl
          obtain rfl : ' ' = d := by simpa using hd
          exact absurd (by simp : ' ' ∈ v.concat ' ' ++ ['*']) (hnospace ht)
      · rintro ⟨-, rfl⟩
        exact ⟨join space init, by simp [space, starSuffix]⟩

/-- What is read back from a pattern whose star is the command's own last argument. -/
theorem tokenize_ne_of_star {pre : Text} {kept : List Text}
    (h : join space kept = pre ++ starSuffix) : tokenizeCommand pre ≠ kept := by
  intro he
  have hcount : quoteCount pre = quoteSum kept := by
    rw [← quoteCount_join, h, quoteCount_append]
    rfl
  by_cases hz : quoteCount pre = 0
  · have hplain : ∀ t ∈ kept, Plain t := he ▸ plain_of_mem_tokenize hz
    have hk := tokenize_join_plain hplain
    rw [h, tokenize_star hz, he] at hk
    have := congrArg List.length hk
    simp at this
  · have hlt := quoteSum_tokenizeFrom_lt pre [] false (by omega)
    rw [← tokenizeCommand, he] at hlt
    simp [hcount] at hlt

theorem one_le_keepCount (rest : List Text) : 1 ≤ keepCount rest := by
  have hfold (table : List (Text × Nat)) (keep : Nat) (h : 1 ≤ keep) :
      1 ≤ table.foldl (fun keep entry =>
        if splitWhitespace entry.1 <+: rest ∧ entry.2 > keep then entry.2 else keep) keep := by
    induction table generalizing keep with
    | nil => exact h
    | cons entry table ih =>
      refine ih _ ?_
      dsimp only
      split <;> omega
  exact hfold arityTable 1 le_rfl

/-- The text of a non-empty pattern: the kept tokens with a star after them, or the whole
command when it ends in a star of its own. -/
theorem patternFor_split {op : String} (hop : isCommandOp op = true) {t0 : Text}
    (h : patternFor op t0 ≠ []) :
    ∃ pre, patternFor op t0 = pre ++ starSuffix ∧
      (∃ t ts, keptTokens (trim t0) = t :: ts ∧ isEnvAssignment t = false) ∧
      ((keptTokens (trim t0) = stripEnvTokens (tokenizeCommand (trim t0)) ∧
          join space (keptTokens (trim t0)) = pre ++ starSuffix) ∨
        (pre = join space (keptTokens (trim t0)) ∧
          ¬(keptTokens (trim t0) = stripEnvTokens (tokenizeCommand (trim t0)) ∧
            starSuffix <:+ join space (keptTokens (trim t0))))) := by
  have hne : reduceCommand (trim t0) ≠ [] ∧ patternFor op t0 =
      if starSuffix <:+ reduceCommand (trim t0) then reduceCommand (trim t0)
      else reduceCommand (trim t0) ++ starSuffix := by
    simp only [patternFor, hop, if_true] at h ⊢
    by_cases ht : trim t0 = []
    · simp [ht] at h
    · by_cases hs : (commandSegments (trim t0)).length > 1
      · simp [ht, hs] at h
      · by_cases hr : reduceCommand (trim t0) = []
        · simp [ht, hs, hr] at h
        · simp [ht, hs, hr]
  obtain ⟨hred, hpat⟩ := hne
  rw [hpat]
  have hkeep := one_le_keepCount (stripEnvTokens (tokenizeCommand (trim t0)))
  cases hrest : stripEnvTokens (tokenizeCommand (trim t0)) with
  | nil => simp [reduceCommand, hrest] at hred
  | cons t ts =>
    rw [hrest] at hkeep
    have hkept : keptTokens (trim t0) = (t :: ts).take (keepCount (t :: ts)) := by
      rw [keptTokens, hrest]
    have hhead : ∃ u us, keptTokens (trim t0) = u :: us ∧ isEnvAssignment u = false := by
      refine ⟨t, ts.take (keepCount (t :: ts) - 1), ?_, stripEnvTokens_head hrest⟩
      rw [hkept, show keepCount (t :: ts) = (keepCount (t :: ts) - 1) + 1 by omega,
        List.take_succ_cons]
      simp
    by_cases hlong : (t :: ts).length ≤ keepCount (t :: ts)
    · have hall : keptTokens (trim t0) = t :: ts := by rw [hkept, List.take_of_length_le hlong]
      have hr : reduceCommand (trim t0) = join space (t :: ts) := by
        rw [reduceCommand, hrest, if_neg (List.cons_ne_nil t ts), if_pos hlong]
      rw [hall] at hhead ⊢
      rw [hr]
      by_cases hstar : starSuffix <:+ join space (t :: ts)
      · obtain ⟨pre, hpre⟩ := hstar
        rw [if_pos ⟨pre, hpre⟩]
        exact ⟨pre, hpre.symm, hhead, Or.inl ⟨rfl, hpre.symm⟩⟩
      · rw [if_neg hstar]
        exact ⟨_, rfl, hhead, Or.inr ⟨rfl, fun hs => hstar hs.2⟩⟩
    · have hr : reduceCommand (trim t0) =
          join space ((t :: ts).take (keepCount (t :: ts))) ++ starSuffix := by
        rw [reduceCommand, hrest, if_neg (List.cons_ne_nil t ts), if_neg hlong]
      rw [hr, if_pos ⟨_, rfl⟩]
      refine ⟨_, rfl, hhead, Or.inr ⟨by rw [hkept], fun hs => hlong ?_⟩⟩
      have hl := congrArg List.length (hkept.symm.trans hs.1)
      rw [List.length_take] at hl
      omega

/-- An always-allow memory covers its own command and nothing wider exactly when its kept
tokens lie inside the command's segment, need no quoting, and do not end in a star. -/
theorem remembersItself_iff {op : String} (hop : isCommandOp op = true) {t0 : Text}
    (h : patternFor op t0 ≠ []) :
    RemembersItself op t0 ↔ Covers (keptTokens (trim t0)) t0 ∧
      (∀ t ∈ keptTokens (trim t0), Plain t) ∧ ¬ EndsInStar (trim t0) := by
  obtain ⟨pre, hpat, ⟨t, ts, hkept, henv⟩, hcase⟩ := patternFor_split hop h
  rw [RemembersItself, hpat]
  simp only [matchesRule_star hop]
  constructor
  · rintro ⟨hself, hall⟩
    have hread : tokenizeCommand pre = keptTokens (trim t0) := by
      rw [hkept] at hall ⊢
      exact eq_of_covers_iff henv hall
    obtain ⟨-, hstar⟩ | ⟨hpre, hnot⟩ := hcase
    · exact absurd hread (tokenize_ne_of_star hstar)
    · have hplain := (tokenize_join_iff _).mp (hpre ▸ hread)
      refine ⟨(hall t0).mp hself, hplain, fun hend => hnot ⟨hend.1, ?_⟩⟩
      exact (starSuffix_join_iff hplain).mpr hend.2
  · rintro ⟨hcov, hplain, hend⟩
    obtain ⟨hrest, hstar⟩ | ⟨hpre, -⟩ := hcase
    · have hsuf : starSuffix <:+ join space (keptTokens (trim t0)) := ⟨pre, hstar.symm⟩
      exact absurd ⟨hrest, (starSuffix_join_iff hplain).mp hsuf⟩ hend
    · have hread : tokenizeCommand pre = keptTokens (trim t0) := by
        rw [hpre, tokenize_join_plain hplain]
      have hne : keptTokens (trim t0) ≠ [] := by simp [hkept]
      rw [hread]
      exact ⟨⟨hne, hcov⟩, fun t1 => and_iff_right hne⟩

theorem remembersItself_cargo_test :
    RemembersItself "process_exec" "cargo test --release".toList :=
  (remembersItself_iff (by decide) (by decide)).mpr (by
    have hk : keptTokens (trim "cargo test --release".toList) =
        ["cargo".toList, "test".toList] := by decide
    refine ⟨by decide, ?_, ?_⟩
    · rw [hk]
      simp [Plain]
      decide
    · rw [EndsInStar, hk]
      decide)

/-- A quoted space: the memory of `git "log -p"` does not cover it. -/
theorem quoted_space_not_remembered :
    ¬ ∀ (op : String) (t0 : Text), isCommandOp op = true → t0 ≠ [] → patternFor op t0 ≠ [] →
      RemembersItself op t0 := by
  intro h
  have hs := (h "process_exec" "git \"log -p\"".toList (by decide) (by decide) (by decide)).1
  exact absurd hs (by decide)

end NemesisBot.ApprovalRules
