import NemesisBot.Security.Auditor
import NemesisBot.Security.Normalized
import NemesisBot.Security.SegmentLaws

/-! Self-destruct protection of a line against that of its segments. -/
namespace NemesisBot.Auditor
open NemesisBot.Strings NemesisBot.Command NemesisBot.Matcher NemesisBot.Words

section
variable {protectedPaths : List Text} {exempt : Text} {ts us ws : List Text} {p : Platform}

/-- A verb with a recursive flag and a target up to the next operator. -/
def Strikes (protectedPaths : List Text) (exempt : Text) (ts : List Text) : Prop :=
  ∃ before verb later, ts = before ++ verb :: later ∧ destructiveBins.contains (binKey verb) ∧
    (∃ t ∈ later.takeWhile (fun t => !commandBoundaries.contains t), isRecursiveFlag t) ∧
    ∃ t ∈ later.takeWhile (fun t => !commandBoundaries.contains t), isHit protectedPaths exempt t

theorem selfDestructFrom_isSome_iff :
    (selfDestructFrom protectedPaths exempt ts).isSome ↔ Strikes protectedPaths exempt ts := by
  induction ts with
  | nil => simp [selfDestructFrom, Strikes]
  | cons t ts ih =>
    have hcons : Strikes protectedPaths exempt (t :: ts) ↔
        (destructiveBins.contains (binKey t) ∧
          (∃ u ∈ ts.takeWhile (fun u => !commandBoundaries.contains u), isRecursiveFlag u) ∧
          ∃ u ∈ ts.takeWhile (fun u => !commandBoundaries.contains u),
            isHit protectedPaths exempt u) ∨ Strikes protectedPaths exempt ts := by
      constructor
      · rintro ⟨before, verb, later, he, h⟩
        cases before with
        | nil =>
          obtain ⟨rfl, rfl⟩ := List.cons.inj he
          exact .inl h
        | cons b before =>
          obtain ⟨rfl, rfl⟩ := List.cons.inj he
          exact .inr ⟨before, verb, later, rfl, h⟩
      · rintro (h | ⟨before, verb, later, rfl, h⟩)
        · exact ⟨[], t, ts, rfl, h⟩
        · exact ⟨t :: before, verb, later, rfl, h⟩
    rw [selfDestructFrom, hcons, ← ih]
    split
    · rename_i h
      simp only [Bool.and_eq_true, List.any_eq_true, List.find?_isSome] at h
      simp only [Option.isSome_map, List.find?_isSome]
      exact iff_of_true h.2 (.inl ⟨h.1.1, h.1.2, h.2⟩)
    · rename_i h
      simp only [Bool.and_eq_true, List.any_eq_true, List.find?_isSome] at h
      exact ⟨.inr, fun hor => hor.elim (fun hh => absurd ⟨⟨hh.1, hh.2.1⟩, hh.2.2⟩ h) id⟩

/-- The word `u` does all that the word `t` does, and is an operator only if `t` is. -/
structure Survives (protectedPaths : List Text) (exempt t u : Text) : Prop where
  verb : destructiveBins.contains (binKey t) → destructiveBins.contains (binKey u)
  flag : isRecursiveFlag t → isRecursiveFlag u
  target : isHit protectedPaths exempt t → isHit protectedPaths exempt u
  operator : u ∈ commandBoundaries → t ∈ commandBoundaries

theorem survives_self (t : Text) : Survives protectedPaths exempt t t := ⟨id, id, id, id⟩

/-- What survives word by word survives up to the next operator. -/
theorem exists_survivor {q : Text → Bool} {later : List Text}
    (hq : ∀ t u, Survives protectedPaths exempt t u → q t = true → q u = true)
    (h : List.Forall₂ (Survives protectedPaths exempt) ts us)
    (ht : ∃ t ∈ ts.takeWhile (fun t => !commandBoundaries.contains t), q t = true) :
    ∃ u ∈ (us ++ later).takeWhile (fun u => !commandBoundaries.contains u), q u = true := by
  induction h with
  | nil => simp at ht
  | @cons t u ts us htu _ ih =>
    obtain ⟨v, hv, hqv⟩ := ht
    have hop : ¬ commandBoundaries.contains t = true := by
      intro hop
      rw [List.takeWhile_cons_of_neg (by simpa using hop)] at hv
      cases hv
    have hop' : ¬ commandBoundaries.contains u = true := fun hu =>
      hop (List.contains_iff_mem.mpr (htu.operator (List.contains_iff_mem.mp hu)))
    rw [List.takeWhile_cons_of_pos (by simpa using hop)] at hv
    rw [List.cons_append, List.takeWhile_cons_of_pos (by simpa using hop')]
    cases List.mem_cons.mp hv with
    | inl hv => exact ⟨u, List.mem_cons_self, hq t u htu (hv ▸ hqv)⟩
    | inr hv =>
      obtain ⟨w, hw, hqw⟩ := ih ⟨v, hv, hqv⟩
      exact ⟨w, List.mem_cons_of_mem u hw, hqw⟩

/-- The words stand in the line in a row, each as what it was. -/
def Kept (protectedPaths : List Text) (exempt : Text) (ts ws : List Text) : Prop :=
  ∃ us, us <:+: ws ∧ List.Forall₂ (Survives protectedPaths exempt) ts us

theorem forall₂_split {α β : Type*} {R : α → β → Prop} {a : α} {before later : List α}
    {us : List β} (h : List.Forall₂ R (before ++ a :: later) us) :
    ∃ front b back, us = front ++ b :: back ∧ R a b ∧ List.Forall₂ R later back := by
  induction before generalizing us with
  | nil =>
    obtain ⟨b, back, hab, hback, rfl⟩ := List.forall₂_cons_left_iff.mp h
    exact ⟨[], b, back, rfl, hab, hback⟩
  | cons c before ih =>
    obtain ⟨d, us, -, hus, rfl⟩ := List.forall₂_cons_left_iff.mp h
    obtain ⟨front, b, back, rfl, hab, hback⟩ := ih hus
    exact ⟨d :: front, b, back, rfl, hab, hback⟩

theorem strikes_kept (h : Strikes protectedPaths exempt ts)
    (hkept : Kept protectedPaths exempt ts ws) : Strikes protectedPaths exempt ws := by
  obtain ⟨before, verb, later, rfl, hverb, hflag, htarget⟩ := h
  obtain ⟨us, ⟨front, back, rfl⟩, hus⟩ := hkept
  obtain ⟨before', verb', later', rfl, hv, hlater⟩ := forall₂_split hus
  exact ⟨front ++ before', verb', later' ++ back, by simp, hv.verb hverb,
    exists_survivor (fun _ _ h => h.flag) hlater hflag,
    exists_survivor (fun _ _ h => h.target) hlater htarget⟩

end

/-- Self-destruct protection fires on the command. -/
def Fires (p : Platform) (protectedPaths : List Text) (exempt c : Text) : Prop :=
  (detectSelfDestruct (normalizeExecCommand p c) protectedPaths exempt).isSome

instance (p : Platform) (protectedPaths : List Text) (exempt c : Text) :
    Decidable (Fires p protectedPaths exempt c) := inferInstanceAs (Decidable (_ = true))

def normalWords (p : Platform) (c : Text) : List Text := splitSpaces (normalizeExecCommand p c)

theorem fires_iff {p : Platform} {protectedPaths : List Text} {exempt c : Text} :
    Fires p protectedPaths exempt c ↔ Strikes protectedPaths exempt (normalWords p c) :=
  selfDestructFrom_isSome_iff

theorem kept_self {protectedPaths : List Text} {exempt : Text} (ts before after : List Text) :
    Kept protectedPaths exempt ts (before ++ ts ++ after) :=
  ⟨ts, List.infix_append before ts after, List.forall₂_same.mpr fun t _ => survives_self t⟩

/-! A segment that stands between blanks keeps its words. -/

section Blanks
variable {p : Platform} (hp : p.Lawful)
include hp

theorem normalWords_eq (c : Text) : normalWords p c = (plainWords p c).map p.toLowercase := by
  have hspace : ∀ v ∈ ((execWords p c).map unquote).map p.toLowercase,
      ∀ ch ∈ v, (ch == ' ') = false := by
    intro v hv ch hch
    rw [beq_eq_false_iff_ne]
    rintro rfl
    exact absurd (visible_normalized hp hv _ hch) (by decide)
  rw [normalWords, normalize_eq hp.toSpaced, plainWords_eq]
  refine (@words_join (· == ' ') ' ' _ rfl hspace).trans ?_
  rw [List.filter_map]
  refine congrArg (List.map p.toLowercase) (List.filter_congr fun v hv => ?_)
  simp [lower_eq_nil_iff hp (visible_bare hv)]

theorem normalWords_blank
    (hfold : ∀ s t, p.nfkc (s ++ ' ' :: t) = p.nfkc s ++ ' ' :: p.nfkc t) (a b : Text) :
    normalWords p (a ++ ' ' :: b) = normalWords p a ++ normalWords p b := by
  rw [normalWords_eq hp, normalWords_eq hp, normalWords_eq hp, ← List.map_append]
  refine congrArg (List.map p.toLowercase) ?_
  rw [plainWords, hfold, unquote_append_cons (by decide)]
  exact words_append_cons _ _ blank_space

theorem kept_between_blanks
    (hfold : ∀ s t, p.nfkc (s ++ ' ' :: t) = p.nfkc s ++ ' ' :: p.nfkc t)
    {protectedPaths : List Text} {exempt : Text} (a s b : Text) :
    Kept protectedPaths exempt (normalWords p s) (normalWords p (a ++ ' ' :: (s ++ ' ' :: b))) := by
  rw [normalWords_blank hp hfold, normalWords_blank hp hfold, ← List.append_assoc]
  exact kept_self _ _ _

end Blanks

/-- If the words of some segment that fires are kept in the line, then the line fires whenever
a segment does. -/
theorem segment_fires {p : Platform} {protectedPaths : List Text} {exempt c : Text}
    (hkept : (∃ s ∈ commandSegments c, Fires p protectedPaths exempt s) →
      ∃ s ∈ commandSegments c, Fires p protectedPaths exempt s ∧
        Kept protectedPaths exempt (normalWords p s) (normalWords p c)) :
    ∀ s ∈ commandSegments c, Fires p protectedPaths exempt s → Fires p protectedPaths exempt c := by
  intro s hs hfires
  obtain ⟨s', -, hfires', hkept'⟩ := hkept ⟨s, hs, hfires⟩
  exact fires_iff.mpr (strikes_kept (fires_iff.mp hfires') hkept')

theorem segment_fires_rm : Fires plainPlatform [] [] "cd x && rm -rf /".toList :=
  segment_fires (fun _ => ⟨"rm -rf /".toList, by decide, by decide,
    ["rm".toList, "-rf".toList, "/".toList], ⟨["cd".toList, "x".toList, "&&".toList], [], by decide⟩,
    List.forall₂_same.mpr fun t _ => survives_self t⟩) "rm -rf /".toList (by decide) (by decide)

/-- Without blanks around the operator the verb goes unseen. -/
theorem segment_hidden :
    ¬ ∀ c protectedPaths exempt, Balanced c → ∀ s ∈ commandSegments c,
      Fires plainPlatform protectedPaths exempt s → Fires plainPlatform protectedPaths exempt c := by
  intro h
  exact absurd (h "cd x&&rm -rf /".toList ["/home/bot".toList] [] (by decide) "rm -rf /".toList
    (by decide) (by decide)) (by decide)

end NemesisBot.Auditor
