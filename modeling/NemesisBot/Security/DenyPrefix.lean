import NemesisBot.Security.Normalized
import NemesisBot.Security.SegmentLaws

/-! Whether a rule that denies a command still denies it behind another one. -/
namespace NemesisBot.Matcher
open NemesisBot.Strings NemesisBot.Glob NemesisBot.Command NemesisBot.Words

/-- What is relied on of folding and lower casing: both go word by word, leave `&&` and some
letters alone, and lower casing makes no line breaks. -/
structure Platform.Joins (p : Platform) : Prop extends Platform.Spaced p where
  nfkc_blank : ∀ s t, p.nfkc (s ++ ' ' :: t) = p.nfkc s ++ ' ' :: p.nfkc t
  plain : ∀ s ∈ [['&', '&'], ['x'], ['y']], p.nfkc s = s ∧ p.toLowercase s = s
  lower_break : ∀ s, '\n' ∈ p.toLowercase s → '\n' ∈ s

/-- The rule matches the command in its bucket. -/
def RuleMatches (p : Platform) (bucket : Bucket) (pattern c : Text) : Prop :=
  execRuleBucketMatch p bucket pattern (normalizeExecCommand p c) (execRuleSegments p c) = true

instance (p : Platform) (bucket : Bucket) (pattern c : Text) :
    Decidable (RuleMatches p bucket pattern c) := inferInstanceAs (Decidable (_ = true))

def Hits (p : Platform) (pattern s : Text) : Prop :=
  matchCommandPattern (normalizeExecCommand p pattern) s = true

instance (p : Platform) (pattern s : Text) : Decidable (Hits p pattern s) :=
  inferInstanceAs (Decidable (_ = true))

/-- The pattern begins with a wildcard. -/
def LeadsWithStar (p : Platform) (pattern : Text) : Prop :=
  (commandPieces (normalizeExecCommand p pattern)).head? = some (.many '\n')

section
variable {p : Platform} {bucket : Bucket} {pattern a b c : Text}

theorem ruleMatches_iff (hb : bucket ≠ .allow) : RuleMatches p bucket pattern c ↔
    (∃ seg ∈ execRuleSegments p c, Hits p pattern seg) ∨
      Hits p pattern (stripEnvAssignments (normalizeExecCommand p c)) ∨
      Hits p pattern (normalizeExecCommand p c) := by
  unfold RuleMatches Hits execRuleBucketMatch
  cases bucket with
  | allow => exact absurd rfl hb
  | deny => simp [or_assoc]
  | ask => simp [or_assoc]

theorem afterRun_append {stop : Char} {tail : Text → Bool} {w s : Text}
    (hw : ∀ d ∈ w, d ≠ stop) (h : afterRun stop tail s = true) :
    afterRun stop tail (w ++ s) = true := by
  induction w with
  | nil => exact h
  | cons d w ih =>
    have hd : (d != stop) = true := by simpa using hw d List.mem_cons_self
    rw [List.cons_append, afterRun, hd, Bool.true_and,
      ih fun e he => hw e (List.mem_cons_of_mem d he), Bool.or_true]

/-- A leading wildcard takes what stands in front. -/
theorem hits_append {w s : Text} (hstar : LeadsWithStar p pattern) (hw : '\n' ∉ w)
    (h : Hits p pattern s) : Hits p pattern (w ++ s) := by
  obtain ⟨ps, hps⟩ := List.head?_eq_some_iff.mp hstar
  unfold Hits matchCommandPattern at h ⊢
  rw [hps, globMatch] at h ⊢
  exact afterRun_append (fun d hd he => hw (he ▸ hd)) h

theorem stripEnvFrom_isSuffix (fuel : Nat) (s : Text) : stripEnvFrom fuel s <:+ s := by
  induction fuel generalizing s with
  | zero => exact List.suffix_rfl
  | succ fuel ih =>
    unfold stripEnvFrom
    split
    · exact List.suffix_rfl
    · split
      · split
        · rename_i rest h
          obtain ⟨w, hw⟩ := afterFirst_eq_some h
          rw [← List.append_assoc] at hw
          exact (ih _).trans ((List.dropWhile_suffix _).trans ⟨_, hw.symm⟩)
        · exact List.suffix_rfl
      · exact List.suffix_rfl

theorem stripEnvAssignments_isSuffix (s : Text) : stripEnvAssignments s <:+ s :=
  stripEnvFrom_isSuffix _ s

theorem mem_replaceFrom {α : Type*} [DecidableEq α] {old new : List α} {x : α} (k : Nat)
    (l : List α) (h : x ∈ replaceFrom old new k l) : x ∈ new ∨ x ∈ l := by
  induction l generalizing k with
  | nil => cases k <;> cases h
  | cons c l ih =>
    have htail : ∀ {k}, x ∈ replaceFrom old new k l → x ∈ new ∨ x ∈ c :: l := fun h =>
      (ih _ h).imp_right (List.mem_cons_of_mem c)
    cases k with
    | zero =>
      unfold replaceFrom at h
      split at h
      · exact (List.mem_append.mp h).elim .inl htail
      · exact (List.mem_cons.mp h).elim (fun he => .inr (he ▸ List.mem_cons_self)) htail
    | succ k => exact htail h

/-- Command patterns are made of letters and of runs within one line. -/
theorem mem_commandPieces {piece : Piece} {s : Text} (h : piece ∈ commandPieces s) :
    piece = .many '\n' ∨ ∃ c, piece = .lit c := by
  cases mem_replaceFrom _ _ h with
  | inl h => exact .inl (List.mem_singleton.mp h)
  | inr h =>
    obtain ⟨c, -, rfl⟩ := List.mem_map.mp h
    exact .inr ⟨c, rfl⟩

/-- A letter with which no text is matched by a pattern without a leading wildcard. -/
theorem letter_missed (hstar : ¬ LeadsWithStar p pattern) :
    ∃ x ∈ (['x', 'y'] : Text), ∀ s, ¬ Hits p pattern (x :: s) := by
  unfold LeadsWithStar at hstar
  unfold Hits matchCommandPattern
  cases hps : commandPieces (normalizeExecCommand p pattern) with
  | nil => exact ⟨'x', by simp, fun s => by simp [globMatch]⟩
  | cons piece ps =>
    rw [hps] at hstar
    have hmem : piece ∈ commandPieces (normalizeExecCommand p pattern) := by
      rw [hps]
      exact List.mem_cons_self
    obtain rfl | ⟨c, rfl⟩ := mem_commandPieces hmem
    · exact absurd rfl hstar
    · have hmiss : ∀ x s, c ≠ x → ¬ globMatch (.lit c :: ps) (x :: s) = true := by
        intro x s hne
        simp [globMatch, hne]
      by_cases hc : c = 'x'
      · exact ⟨'y', by simp, fun s => hmiss 'y' s (by rw [hc]; decide)⟩
      · exact ⟨'x', by simp, fun s => hmiss 'x' s hc⟩

theorem isWord_of_all {w : Text} (hne : w ≠ [])
    (h : w.all (fun d => !isWhitespace d) = true) : IsWord isWhitespace w :=
  ⟨hne, fun d hd => by simpa using List.all_eq_true.mp h d hd⟩

/-! The joined line, normalised. -/

section Joins
variable (hp : p.Joins)
include hp

theorem execWords_andThen (a b : Text) :
    execWords p (andThen a b) = execWords p a ++ ['&', '&'] :: execWords p b := by
  have hjoin : andThen a b = a ++ ' ' :: (['&', '&'] ++ ' ' :: b) := by
    rw [andThen, List.append_assoc]
    rfl
  have hand : words isWhitespace ['&', '&'] = [['&', '&']] :=
    words_of_isWord (isWord_of_all (List.cons_ne_nil _ _) rfl)
  change words isWhitespace _ = _
  rw [hjoin, hp.nfkc_blank, hp.nfkc_blank, (hp.plain _ List.mem_cons_self).1,
    words_append_cons _ _ blank_space, words_append_cons _ _ blank_space, hand]
  rfl

/-- The normalised words with their quotes gone. -/
def bareWords (p : Platform) (c : Text) : List Text :=
  ((execWords p c).map unquote).map p.toLowercase

theorem bareWords_andThen (a b : Text) :
    bareWords p (andThen a b) = bareWords p a ++ ['&', '&'] :: bareWords p b := by
  have hquote : unquote ['&', '&'] = ['&', '&'] := by decide
  simp [bareWords, execWords_andThen hp, hquote, (hp.plain _ List.mem_cons_self).2]

theorem no_break (c : Text) : '\n' ∉ normalizeExecCommand p c := by
  intro h
  have hcol := hp.lower_break _ h
  obtain ⟨hmem, -⟩ := List.mem_filter.mp hcol
  have hjoin : ∀ ws : List Text, (∀ w ∈ ws, IsWord isWhitespace w) → '\n' ∉ join space ws := by
    intro ws hws
    induction ws with
    | nil => exact List.not_mem_nil
    | cons w ws ih =>
      have hw : '\n' ∉ w := fun hn => absurd ((hws w List.mem_cons_self).2 _ hn) (by decide)
      have hrest := ih fun u hu => hws u (List.mem_cons_of_mem w hu)
      cases ws with
      | nil => exact hw
      | cons u ws =>
        rw [join_cons (List.cons_ne_nil u ws), List.mem_append, List.mem_append]
        rintro ((hn | hn) | hn)
        · exact hw hn
        · exact absurd hn (by decide)
        · exact hrest hn
  exact hjoin _ (fun w hw => isWord_execWords p hw) hmem

theorem normalize_andThen_ends (a b : Text) :
    ∃ w, normalizeExecCommand p (andThen a b) = w ++ normalizeExecCommand p b := by
  rw [normalize_eq hp.toSpaced, normalize_eq hp.toSpaced]
  change ∃ w, join space (bareWords p (andThen a b)) = w ++ join space (bareWords p b)
  rw [bareWords_andThen hp]
  by_cases hb : bareWords p b = []
  · exact ⟨_, by rw [hb]; exact (List.append_nil _).symm⟩
  · rw [List.append_cons, join_append (by simp) hb]
    exact ⟨_, rfl⟩

theorem hits_andThen {s : Text} (hstar : LeadsWithStar p pattern) (h : Hits p pattern s)
    (hs : s <:+ normalizeExecCommand p b) (a : Text) :
    Hits p pattern (normalizeExecCommand p (andThen a b)) := by
  obtain ⟨w, hw⟩ := normalize_andThen_ends hp a b
  obtain ⟨v, hv⟩ := hs
  have hbreak := no_break hp (andThen a b)
  rw [hw, ← hv, ← List.append_assoc] at hbreak ⊢
  exact hits_append hstar (fun hm => hbreak (List.mem_append_left s hm)) h

/-- A one-letter command in front keeps its letter there. -/
theorem normalize_letter {x : Char} (hx : x ∈ (['x', 'y'] : Text)) (b : Text) :
    normalizeExecCommand p [x] = [x] ∧
      ∃ t, normalizeExecCommand p (andThen [x] b) = x :: ' ' :: t := by
  have hplain : p.nfkc [x] = [x] ∧ p.toLowercase [x] = [x] := by
    refine hp.plain [x] ?_
    rw [List.mem_cons, List.mem_singleton] at hx
    obtain rfl | rfl := hx <;> simp
  have hword : IsWord isWhitespace [x] ∧ unquote [x] = [x] := by
    rw [List.mem_cons, List.mem_singleton] at hx
    obtain rfl | rfl := hx
    · exact ⟨isWord_of_all (List.cons_ne_nil _ _) rfl, by decide⟩
    · exact ⟨isWord_of_all (List.cons_ne_nil _ _) rfl, by decide⟩
  have hbare : bareWords p [x] = [[x]] := by
    have hexec : execWords p [x] = [[x]] := by
      change words isWhitespace _ = _
      rw [hplain.1, words_of_isWord hword.1]
    rw [bareWords, hexec, List.map_singleton, List.map_singleton, hword.2, hplain.2]
  refine ⟨?_, join space (['&', '&'] :: bareWords p b), ?_⟩
  · rw [normalize_eq hp.toSpaced]
    exact congrArg (join space) hbare
  · rw [normalize_eq hp.toSpaced]
    refine (congrArg (join space) (bareWords_andThen hp [x] b)).trans ?_
    rw [hbare, List.singleton_append, join_cons (List.cons_ne_nil _ _)]
    rfl

omit hp in
/-- The letter is no environment assignment. -/
theorem stripEnv_letter {x : Char} (hx : x ∈ (['x', 'y'] : Text)) (t : Text) :
    stripEnvAssignments (x :: ' ' :: t) = x :: ' ' :: t ∧ stripEnvAssignments [x] = [x] := by
  have hwords : splitWhitespace (x :: ' ' :: t) = [x] :: splitWhitespace t := by
    rw [List.mem_cons, List.mem_singleton] at hx
    refine (words_append_cons [x] t blank_space).trans ?_
    obtain rfl | rfl := hx <;> rfl
  have henv : isEnvAssignment [x] = false := by
    rw [List.mem_cons, List.mem_singleton] at hx
    obtain rfl | rfl := hx <;> decide
  constructor
  · rw [stripEnvAssignments, List.length_cons, stripEnvFrom, hwords]
    simp [henv]
  · rw [List.mem_cons, List.mem_singleton] at hx
    obtain rfl | rfl := hx <;> decide

/-- No command in front dodges the rule, exactly if the rule matches a segment of the command
or begins with a wildcard. -/
theorem deny_prefix_iff (hb : bucket ≠ .allow) (hbal : Balanced b) :
    (∀ a, Balanced a → RuleMatches p bucket pattern b →
        RuleMatches p bucket pattern (andThen a b)) ↔
      (RuleMatches p bucket pattern b →
        LeadsWithStar p pattern ∨ ∃ seg ∈ execRuleSegments p b, Hits p pattern seg) := by
  constructor
  · intro h hmatch
    by_contra hno
    obtain ⟨hstar, hsegs⟩ := not_or.mp hno
    obtain ⟨x, hx, hmiss⟩ := letter_missed hstar
    have hbal' : Balanced [x] ∧ commandSegments [x] = [[x]] := by
      rw [List.mem_cons, List.mem_singleton] at hx
      obtain rfl | rfl := hx <;> decide
    obtain ⟨hone, t, hjoin⟩ := normalize_letter hp hx b
    obtain ⟨hstrip, hstrip'⟩ := stripEnv_letter hx t
    have hjoined := (ruleMatches_iff hb).mp (h [x] hbal'.1 hmatch)
    rw [hjoin, hstrip] at hjoined
    obtain ⟨seg, hseg, hhit⟩ | hhit | hhit := hjoined
    · obtain ⟨raw, hraw, rfl⟩ := List.mem_map.mp hseg
      obtain hraw | hraw := (mem_commandSegments_andThen hbal'.1 hbal).mp hraw
      · rw [hbal'.2, List.mem_singleton] at hraw
        rw [hraw, hone, hstrip'] at hhit
        exact hmiss [] hhit
      · exact hsegs ⟨_, List.mem_map.mpr ⟨raw, hraw, rfl⟩, hhit⟩
    · exact hmiss _ hhit
    · exact hmiss _ hhit
  · intro h a ha hmatch
    rw [ruleMatches_iff hb]
    obtain hstar | ⟨seg, hseg, hhit⟩ := h hmatch
    · obtain ⟨seg, hseg, hhit⟩ | hhit | hhit := (ruleMatches_iff hb).mp hmatch
      · obtain ⟨raw, hraw, rfl⟩ := List.mem_map.mp hseg
        have hin := (mem_commandSegments_andThen ha hbal).mpr (.inr hraw)
        exact .inl ⟨_, List.mem_map.mpr ⟨raw, hin, rfl⟩, hhit⟩
      · exact .inr (.inr (hits_andThen hp hstar hhit (stripEnvAssignments_isSuffix _) a))
      · exact .inr (.inr (hits_andThen hp hstar hhit List.suffix_rfl a))
    · obtain ⟨raw, hraw, rfl⟩ := List.mem_map.mp hseg
      have hin := (mem_commandSegments_andThen ha hbal).mpr (.inr hraw)
      exact .inl ⟨_, List.mem_map.mpr ⟨raw, hin, rfl⟩, hhit⟩

end Joins

end

theorem joins_plain : plainPlatform.Joins where
  toSpaced := lawful_plain.toSpaced
  nfkc_blank _ _ := rfl
  plain := by decide
  lower_break s h := by
    obtain ⟨c, hc, he⟩ := List.mem_map.mp h
    have hn : c = '\n' := by
      obtain hl | ⟨hlow, -, hl⟩ := toNat_toLower c
      · rwa [hl] at he
      · rw [he] at hl
        have hten : '\n'.toNat = 10 := rfl
        omega
    exact hn ▸ hc

theorem deny_prefix_rm :
    RuleMatches plainPlatform .deny "rm *".toList "rm -rf x".toList ∧
      RuleMatches plainPlatform .deny "rm *".toList
        (andThen "echo hi".toList "rm -rf x".toList) :=
  have hmatch : RuleMatches plainPlatform .deny "rm *".toList "rm -rf x".toList := by decide
  have h := deny_prefix_iff joins_plain (by decide : Bucket.deny ≠ .allow)
    (by decide : Balanced "rm -rf x".toList)
  ⟨hmatch, h.mpr (fun _ => .inr ⟨"rm -rf x".toList, by decide, by decide⟩) _ (by decide) hmatch⟩

/-- A rule on a whole pipeline is dodged by any command in front of it. -/
theorem deny_prefix_dodged :
    ¬ ∀ pattern a b, Balanced a → Balanced b → RuleMatches plainPlatform .deny pattern b →
      RuleMatches plainPlatform .deny pattern (andThen a b) := by
  intro h
  exact absurd (h "curl * | sh".toList "ls".toList "curl x | sh".toList (by decide) (by decide)
    (by decide)) (by decide)

end NemesisBot.Matcher
