import NemesisBot.Security.Matcher

/-! Command lines joined by `&&`: their segments, and the rules that match them. -/
namespace NemesisBot.Matcher
open NemesisBot.Strings NemesisBot.Glob NemesisBot.Command

section Dedup
variable {α : Type*} [DecidableEq α]

theorem dedup_cons (x : α) (l : List α) :
    dedup (x :: l) = if l.head? = some x then dedup l else x :: dedup l := by
  cases l with
  | nil => rfl
  | cons y l =>
    by_cases h : x = y
    · simp [dedup, h]
    · simp [dedup, h, Ne.symm h]

theorem head?_dedup (l : List α) : (dedup l).head? = l.head? := by
  induction l with
  | nil => rfl
  | cons x l ih =>
    rw [dedup_cons]
    split
    · rename_i h
      rw [ih, h, List.head?_cons]
    · rfl

theorem mem_dedup {x : α} {l : List α} : x ∈ dedup l ↔ x ∈ l := by
  induction l with
  | nil => rfl
  | cons y l ih =>
    rw [dedup_cons]
    split
    · rename_i h
      have hy : y ∈ l := List.mem_of_mem_head? h
      rw [ih, List.mem_cons]
      exact ⟨Or.inr, fun hx => hx.elim (fun he => he ▸ hy) id⟩
    · rw [List.mem_cons, List.mem_cons, ih]

theorem dedup_append_right (xs ys : List α) : dedup (xs ++ dedup ys) = dedup (xs ++ ys) := by
  induction xs with
  | nil =>
    induction ys with
    | nil => rfl
    | cons y ys ih =>
      rw [List.nil_append, List.nil_append] at ih ⊢
      by_cases h : ys.head? = some y
      · rw [dedup_cons, if_pos h, ih]
      · rw [dedup_cons, if_neg h, dedup_cons, head?_dedup, if_neg h, ih]
  | cons x xs ih =>
    have hhead : (xs ++ dedup ys).head? = (xs ++ ys).head? := by
      rw [List.head?_append, List.head?_append, head?_dedup]
    rw [List.cons_append, List.cons_append, dedup_cons, dedup_cons, ih, hhead]

theorem dedup_append_left (xs ys : List α) : dedup (dedup xs ++ ys) = dedup (xs ++ ys) := by
  induction xs with
  | nil => rfl
  | cons x xs ih =>
    rw [List.cons_append, dedup_cons, dedup_cons]
    by_cases h : xs.head? = some x
    · have hhead : (xs ++ ys).head? = some x := by
        rw [List.head?_append, h]
        rfl
      rw [if_pos h, if_pos hhead, ih]
    · have hhead : (dedup xs ++ ys).head? = (xs ++ ys).head? := by
        rw [List.head?_append, List.head?_append, head?_dedup]
      rw [if_neg h, List.cons_append, dedup_cons, hhead, ih]

theorem dedup_append (xs ys : List α) : dedup (xs ++ ys) = dedup (dedup xs ++ dedup ys) := by
  rw [dedup_append_right, dedup_append_left]

end Dedup

/-- The command lines one after the other, the second only if the first succeeds. -/
def andThen (a b : Text) : Text := a ++ " && ".toList ++ b

/-- Every quote is closed. -/
def Balanced (cmd : Text) : Prop := (scanSegments cmd true).2 = true

instance (cmd : Text) : Decidable (Balanced cmd) := inferInstanceAs (Decidable (_ = true))

/-- The text before the scan goes in front of the first segment. -/
theorem scanFrom_cur (q : Bool) (cur cur' : Text) (s d : Bool) (prev : Option Char) (skip : Bool)
    (l : List Char) : ∃ seg segs, (scanFrom q cur s d prev skip l).1 = (cur ++ seg) :: segs ∧
      scanFrom q cur' s d prev skip l =
        ((cur' ++ seg) :: segs, (scanFrom q cur s d prev skip l).2) := by
  induction l generalizing cur cur' s d prev skip with
  | nil => exact ⟨[], [], by simp [scanFrom], by simp [scanFrom]⟩
  | cons ch rest ih =>
    have hstep : ∀ s d, ∃ seg segs,
        (scanFrom q (cur ++ [ch]) s d (some ch) false rest).1 = (cur ++ seg) :: segs ∧
        scanFrom q (cur' ++ [ch]) s d (some ch) false rest =
          ((cur' ++ seg) :: segs, (scanFrom q (cur ++ [ch]) s d (some ch) false rest).2) := by
      intro s d
      obtain ⟨seg, segs, h, h'⟩ := ih (cur ++ [ch]) (cur' ++ [ch]) s d (some ch) false
      exact ⟨ch :: seg, segs, by simpa using h, by simpa using h'⟩
    unfold scanFrom
    by_cases hskip : skip = true
    · simp only [if_pos hskip]
      exact ih cur cur' s d prev false
    · simp only [if_neg hskip]
      split
      · split
        · exact hstep _ _
        · split
          · exact hstep _ _
          · exact hstep _ _
      · split
        · exact ⟨[], _, by rw [List.append_nil], by rw [List.append_nil]⟩
        · split
          · split
            · exact hstep _ _
            · exact ⟨[], _, by rw [List.append_nil], by rw [List.append_nil]⟩
          · exact hstep _ _

/-- The character before the scan counts only when it redirects. -/
theorem scanFrom_prev {q s d skip : Bool} {cur : Text} {prev prev' : Option Char} (l : List Char)
    (h : prev ≠ some '>' ∧ prev ≠ some '<') (h' : prev' ≠ some '>' ∧ prev' ≠ some '<') :
    scanFrom q cur s d prev skip l = scanFrom q cur s d prev' skip l := by
  induction l generalizing skip with
  | nil => rfl
  | cons ch rest ih =>
    unfold scanFrom
    simp only [h.1, h.2, h'.1, h'.2, decide_false, @ih false]

/-- The scan of a joined line goes through the first line and starts again in the second. -/
theorem scanFrom_andThen (b : Text) (a : List Char) (cur : Text) (s d : Bool)
    (prev : Option Char) (skip : Bool) (hskip : skip = true → a ≠ [])
    (hbal : (scanFrom true cur s d prev skip a).2 = true) :
    ∃ segs last, (scanFrom true cur s d prev skip a).1 = segs ++ [last] ∧
      scanFrom true cur s d prev skip (a ++ " && ".toList ++ b) =
        (segs ++ (last ++ [' ']) :: (scanFrom true [' '] false false (some ' ') false b).1,
          (scanFrom true [' '] false false (some ' ') false b).2) := by
  induction a generalizing cur s d prev skip with
  | nil =>
    have hs : skip = false := by
      cases skip with
      | false => rfl
      | true => exact absurd rfl (hskip rfl)
    subst hs
    simp only [scanFrom, Bool.and_eq_true, Bool.not_eq_true'] at hbal
    obtain ⟨rfl, rfl⟩ := hbal
    refine ⟨[], cur, rfl, ?_⟩
    simp [scanFrom]
  | cons ch rest ih =>
    generalize scanFrom true [' '] false false (some ' ') false b = tail at ih ⊢
    unfold scanFrom at hbal ⊢
    by_cases hsk : skip = true
    · simp only [if_pos hsk, List.cons_append] at hbal ⊢
      exact ih cur s d prev false (by simp) hbal
    · have hhead : ∀ c : Char, c ≠ ' ' →
          ((rest ++ " && ".toList ++ b).head? = some c ↔ rest.head? = some c) := by
        intro c hc
        cases rest with
        | nil => simp [Ne.symm hc]
        | cons x rest => simp
      have hgt : (rest ++ " && ".toList ++ b).head? = some '>' ↔ rest.head? = some '>' :=
        hhead '>' (by decide)
      simp only [if_neg hsk, List.cons_append, hgt] at hbal ⊢
      split
      · rename_i hq
        rw [if_pos hq] at hbal
        split
        · rename_i hch
          rw [if_pos hch] at hbal
          exact ih _ _ _ _ _ (by simp) hbal
        · rename_i hch
          rw [if_neg hch] at hbal
          split
          · rename_i hdq
            rw [if_pos hdq] at hbal
            exact ih _ _ _ _ _ (by simp) hbal
          · rename_i hdq
            rw [if_neg hdq] at hbal
            exact ih _ _ _ _ _ (by simp) hbal
      · rename_i hq
        rw [if_neg hq] at hbal
        split
        · rename_i hsep
          rw [if_pos hsep] at hbal
          obtain ⟨segs, last, h, h'⟩ := ih [] s d none false (by simp) hbal
          exact ⟨cur :: segs, last, by rw [h, List.cons_append], by rw [h', List.cons_append]⟩
        · rename_i hsep
          rw [if_neg hsep] at hbal
          split
          · rename_i hop
            rw [if_pos hop] at hbal
            split
            · rename_i hredir
              rw [if_pos hredir] at hbal
              exact ih _ _ _ _ _ (by simp) hbal
            · rename_i hredir
              rw [if_neg hredir] at hbal
              have hne : ch ≠ ' ' := by
                rintro rfl
                simp at hop
              simp only [hhead ch hne] at hbal ⊢
              obtain ⟨segs, last, h, h'⟩ := ih [] s d none (rest.head? = some ch)
                (by rintro hsome rfl; simp at hsome) hbal
              exact ⟨cur :: segs, last, by rw [h, List.cons_append], by rw [h', List.cons_append]⟩
          · rename_i hop
            rw [if_neg hop] at hbal
            exact ih _ _ _ _ _ (by simp) hbal

theorem isWhitespace_of_mem_space {c : Char} (h : c ∈ ([' '] : Text)) : isWhitespace c = true := by
  rw [List.mem_singleton.mp h]
  rfl

theorem trim_concat_space (s : Text) : trim (s ++ [' ']) = trim s := by
  have h := @trim_surround [] [' '] s (by simp) fun c => isWhitespace_of_mem_space
  rwa [List.nil_append] at h

theorem trim_space_cons (s : Text) : trim (' ' :: s) = trim s := by
  have h := @trim_surround [' '] [] s (fun c => isWhitespace_of_mem_space) (by simp)
  rwa [List.append_nil] at h

theorem commandSegments_of_balanced {cmd : Text} (h : Balanced cmd) :
    commandSegments cmd = finishSegments (scanSegments cmd true).1 := by
  unfold Balanced at h
  simp [commandSegments, h]

/-- The second line is scanned as if it stood alone, but for a blank in front. -/
theorem scanSegments_andThen {a b : Text} (ha : Balanced a) :
    ∃ segs last seg segs', (scanSegments a true).1 = segs ++ [last] ∧
      (scanSegments b true).1 = seg :: segs' ∧
      scanSegments (andThen a b) true =
        (segs ++ (last ++ [' ']) :: (' ' :: seg) :: segs', (scanSegments b true).2) := by
  obtain ⟨segs, last, h, h'⟩ := scanFrom_andThen b a [] false false none false (by simp) ha
  obtain ⟨seg, segs', hb, hb'⟩ := scanFrom_cur true [] [' '] false false none false b
  have hprev : scanFrom true [' '] false false (some ' ') false b =
      scanFrom true [' '] false false none false b := scanFrom_prev b (by simp) (by simp)
  refine ⟨segs, last, seg, segs', h, hb, ?_⟩
  rw [scanSegments, andThen, h', hprev, hb']
  rfl

theorem balanced_andThen {a b : Text} (ha : Balanced a) (hb : Balanced b) :
    Balanced (andThen a b) := by
  obtain ⟨segs, last, seg, segs', -, -, h⟩ := scanSegments_andThen (b := b) ha
  rw [Balanced, h]
  exact hb

theorem commandSegments_andThen {a b : Text} (ha : Balanced a) (hb : Balanced b) :
    commandSegments (andThen a b) = dedup (commandSegments a ++ commandSegments b) := by
  rw [commandSegments_of_balanced (balanced_andThen ha hb), commandSegments_of_balanced ha,
    commandSegments_of_balanced hb]
  obtain ⟨segs, last, seg, segs', h, h', hj⟩ := scanSegments_andThen (b := b) ha
  have hmap : (segs ++ (last ++ [' ']) :: (' ' :: seg) :: segs').map trim =
      (segs ++ [last]).map trim ++ (seg :: segs').map trim := by
    simp [trim_concat_space, trim_space_cons]
  rw [hj, h, h', finishSegments, finishSegments, finishSegments, ← dedup_append, hmap,
    List.filter_append]

theorem mem_commandSegments_andThen {a b seg : Text} (ha : Balanced a) (hb : Balanced b) :
    seg ∈ commandSegments (andThen a b) ↔ seg ∈ commandSegments a ∨ seg ∈ commandSegments b := by
  rw [commandSegments_andThen ha hb, mem_dedup, List.mem_append]

/-- An allow rule that matches a line matches every line all of whose segments are in it. -/
theorem allow_of_segments {p : Platform} {pattern c d : Text}
    (hsub : ∀ seg ∈ commandSegments d, seg ∈ commandSegments c) (hd : commandSegments d ≠ [])
    (h : execRuleBucketMatch p .allow pattern (normalizeExecCommand p c) (execRuleSegments p c)) :
    execRuleBucketMatch p .allow pattern (normalizeExecCommand p d) (execRuleSegments p d) := by
  simp only [execRuleBucketMatch, execRuleSegments, Bool.and_eq_true, Bool.not_eq_true',
    List.all_map, List.all_eq_true] at h ⊢
  refine ⟨?_, fun seg hseg => h.2 seg (hsub seg hseg)⟩
  simpa using hd

/-- Segmenting is a homomorphism, and allow rules are checked segment by segment. -/
theorem segments_andThen (p : Platform) (pattern a b : Text) (ha : Balanced a)
    (hb : Balanced b) :
    commandSegments (andThen a b) = dedup (commandSegments a ++ commandSegments b) ∧
    (execRuleBucketMatch p .allow pattern (normalizeExecCommand p (andThen a b))
        (execRuleSegments p (andThen a b)) →
      (commandSegments a ≠ [] → execRuleBucketMatch p .allow pattern
        (normalizeExecCommand p a) (execRuleSegments p a)) ∧
      (commandSegments b ≠ [] → execRuleBucketMatch p .allow pattern
        (normalizeExecCommand p b) (execRuleSegments p b))) := by
  refine ⟨commandSegments_andThen ha hb, fun h => ⟨fun hne => ?_, fun hne => ?_⟩⟩
  · exact allow_of_segments (fun seg hs => (mem_commandSegments_andThen ha hb).mpr (.inl hs)) hne h
  · exact allow_of_segments (fun seg hs => (mem_commandSegments_andThen ha hb).mpr (.inr hs)) hne h

theorem segments_andThen_cd :
    Balanced "cd 'x && y'; ls".toList ∧ Balanced "ls | wc".toList ∧
      commandSegments (andThen "cd 'x && y'; ls".toList "ls | wc".toList) =
        dedup (commandSegments "cd 'x && y'; ls".toList ++ commandSegments "ls | wc".toList) :=
  ⟨by decide, by decide, (segments_andThen ⟨id, List.map Char.toLower, false⟩ ['*'] _ _
    (by decide) (by decide)).1⟩

end NemesisBot.Matcher
