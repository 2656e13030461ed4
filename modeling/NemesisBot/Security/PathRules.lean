import NemesisBot.Security.Matcher

/-! What a path rule means by its stars, and the regular expression it is compiled to. -/
namespace NemesisBot.Matcher
open Strings Glob

/-- What `wildcard_to_regex` escapes. -/
def isEscaped (c : Char) : Bool := c ∈ "^$+.?()[]\x7b\x7d|\\".toList

/-- The expression between its anchors; `skip` drops the second star of `**`. -/
def regexBody : Bool → Text → Text
  | _, [] => []
  | true, _ :: rest => regexBody false rest
  | false, c :: rest =>
    if c = '*' then
      if rest.head? = some '*' then ".*".toList ++ regexBody true rest
      else "[^/]*".toList ++ regexBody false rest
    else if isEscaped c then '\\' :: c :: regexBody false rest
    else c :: regexBody false rest

def wildcardToRegex (pattern : Text) : Text := '^' :: (regexBody false pattern ++ ['$'])

/-- The characters with a meaning in an expression, outside of classes. -/
def isMeta (c : Char) : Bool := c ∈ "\\.+*?()|[]\x7b\x7d^$".toList

/-- Reads an expression made of runs, escaped characters and plain ones up to the final anchor;
`none` for any other expression. -/
def readBody : Text → Option (List Piece)
  | [] => none
  | ['$'] => some []
  | '.' :: '*' :: rest => (readBody rest).map fun ps => .many '\n' :: ps
  | '[' :: '^' :: '/' :: ']' :: '*' :: rest => (readBody rest).map fun ps => .many '/' :: ps
  | '\\' :: c :: rest =>
    if isMeta c then (readBody rest).map fun ps => .lit c :: ps else none
  | c :: rest => if isMeta c then none else (readBody rest).map fun ps => .lit c :: ps

def readRegex : Text → Option (List Piece)
  | '^' :: body => readBody body
  | _ => none

theorem isMeta_eq_isEscaped {c : Char} (h : c ≠ '*') : isMeta c = isEscaped c := by
  rw [isMeta, isEscaped, decide_eq_decide]
  simp [h]
  tauto

theorem readBody_plain {c : Char} {rest : Text} (h : isMeta c = false) :
    readBody (c :: rest) = (readBody rest).map fun ps => .lit c :: ps := by
  have hne {d : Char} (hd : isMeta d = true) : c ≠ d := by
    rintro rfl
    rw [h] at hd
    cases hd
  rw [readBody]
  · rw [if_neg (by simp [h])]
  · exact fun hc => absurd hc (hne rfl)
  · exact fun _ hc => absurd hc (hne rfl)
  · exact fun _ hc => absurd hc (hne rfl)
  · exact fun _ _ hc => absurd hc (hne rfl)

theorem readBody_regexBody (skip : Bool) (pattern : Text) :
    readBody (regexBody skip pattern ++ ['$']) = some (wildcardPieces skip pattern) := by
  induction pattern generalizing skip with
  | nil => cases skip <;> rfl
  | cons c rest ih =>
    cases skip with
    | true => exact ih false
    | false =>
      rw [regexBody, wildcardPieces]
      by_cases hstar : c = '*'
      · rw [if_pos hstar, if_pos hstar]
        split
        · change (readBody (regexBody true rest ++ ['$'])).map _ = _
          rw [ih]
          rfl
        · change (readBody (regexBody false rest ++ ['$'])).map _ = _
          rw [ih]
          rfl
      · rw [if_neg hstar, if_neg hstar]
        cases hesc : isEscaped c with
        | true =>
          have hmeta : isMeta c = true := by rw [isMeta_eq_isEscaped hstar, hesc]
          change (if isMeta c = true then (readBody (regexBody false rest ++ ['$'])).map _
            else none) = _
          rw [if_pos hmeta, ih]
          rfl
        | false =>
          rw [if_neg Bool.false_ne_true, List.cons_append, readBody_plain, ih]
          · rfl
          · rw [isMeta_eq_isEscaped hstar, hesc]

/-- The expression has the pieces that the pattern is matched by. -/
theorem doMatch_eq (pattern target : Text) : doMatch pattern target =
    (readRegex (wildcardToRegex pattern)).any fun ps => globMatch ps target := by
  change _ = (readBody (regexBody false pattern ++ ['$'])).any _
  rw [readBody_regexBody, Option.any_some, doMatch]

/-- The target is the pattern with each pair of stars, taken left to right, replaced by a string
of wide characters and each other star by a string without slash. -/
inductive Obtained (wide : Char → Prop) : Text → Text → Prop
  | nil : Obtained wide [] []
  | lit {c : Char} {p t : Text} (hc : c ≠ '*') (h : Obtained wide p t) :
      Obtained wide (c :: p) (c :: t)
  | star {w p t : Text} (hw : '/' ∉ w) (hp : p.head? ≠ some '*') (h : Obtained wide p t) :
      Obtained wide ('*' :: p) (w ++ t)
  | stars {w p t : Text} (hw : ∀ c ∈ w, wide c) (h : Obtained wide p t) :
      Obtained wide ('*' :: '*' :: p) (w ++ t)

/-- A pattern with a star and without a slash stands for a name in any directory. -/
def anchored (pattern : Text) : Text :=
  if '*' ∈ pattern ∧ '/' ∉ pattern then '*' :: '*' :: pattern else pattern

/-- The target is what the rule says, when `**` stands for wide characters. -/
def Means (wide : Char → Prop) (pattern target : Text) : Prop :=
  Obtained wide (anchored (normalizePath pattern)) (normalizePath target)

theorem Obtained.mono {wide wider : Char → Prop} (hw : ∀ c, wide c → wider c) {p t : Text}
    (h : Obtained wide p t) : Obtained wider p t := by
  induction h with
  | nil => exact .nil
  | lit hc _ ih => exact .lit hc ih
  | star hs hp _ ih => exact .star hs hp ih
  | stars hs _ ih => exact .stars (fun c hc => hw c (hs c hc)) ih

theorem obtained_plain {wide : Char → Prop} {p t : Text} (hp : '*' ∉ p) :
    Obtained wide p t ↔ p = t := by
  constructor
  · intro h
    induction h with
    | nil => rfl
    | lit _ _ ih => rw [ih fun hm => hp (List.mem_cons_of_mem _ hm)]
    | star => exact (hp List.mem_cons_self).elim
    | stars => exact (hp List.mem_cons_self).elim
  · rintro rfl
    induction p with
    | nil => exact .nil
    | cons c p ih =>
      exact .lit (fun he => hp (he ▸ List.mem_cons_self)) (ih fun hm => hp (List.mem_cons_of_mem c hm))

theorem obtained_lit_iff {wide : Char → Prop} {c : Char} (hc : c ≠ '*') {p s : Text} :
    Obtained wide (c :: p) s ↔ ∃ t, s = c :: t ∧ Obtained wide p t := by
  constructor
  · intro h
    cases h with
    | lit _ h => exact ⟨_, rfl, h⟩
    | star => exact (hc rfl).elim
    | stars => exact (hc rfl).elim
  · rintro ⟨t, rfl, h⟩
    exact .lit hc h

/-- Character by character, a pair of stars at a time. -/
theorem doMatch_iff (pattern target : Text) :
    doMatch pattern target = true ↔ Obtained (· ≠ '\n') pattern target := by
  rw [doMatch]
  induction hn : pattern.length using Nat.strong_induction_on generalizing pattern target with
  | _ n ih =>
    subst hn
    cases pattern with
    | nil =>
      rw [wildcardPieces, globMatch, List.isEmpty_iff]
      constructor
      · rintro rfl
        exact .nil
      · rintro ⟨⟩
        rfl
    | cons c rest =>
      have hrest := fun t => ih rest.length (by simp) rest t rfl
      rw [wildcardPieces]
      by_cases hstar : c = '*'
      · subst hstar
        rw [if_pos rfl]
        by_cases hpair : rest.head? = some '*'
        · obtain ⟨after, rfl⟩ := List.head?_eq_some_iff.mp hpair
          rw [if_pos hpair, globMatch, afterRun_iff]
          change (∃ w t, target = w ++ t ∧ '\n' ∉ w ∧
            globMatch (wildcardPieces false after) t = true) ↔ _
          constructor
          · rintro ⟨w, t, rfl, hw, ht⟩
            refine .stars (fun d hd he => hw (he ▸ hd)) ((ih after.length ?_ after t rfl).mp ht)
            simp only [List.length_cons]
            omega
          · intro h
            cases h with
            | lit hc => exact (hc rfl).elim
            | star _ hp => exact (hp rfl).elim
            | stars hw h =>
              refine ⟨_, _, rfl, fun hm => hw _ hm rfl, (ih after.length ?_ after _ rfl).mpr h⟩
              simp only [List.length_cons]
              omega
        · rw [if_neg hpair, globMatch, afterRun_iff]
          constructor
          · rintro ⟨w, t, rfl, hw, ht⟩
            exact .star hw hpair ((hrest t).mp ht)
          · intro h
            cases h with
            | lit hc => exact (hc rfl).elim
            | star hw _ h => exact ⟨_, _, rfl, hw, (hrest _).mpr h⟩
            | stars => exact (hpair rfl).elim
      · rw [if_neg hstar, obtained_lit_iff hstar]
        cases target with
        | nil =>
          refine iff_of_false Bool.false_ne_true ?_
          rintro ⟨_, h, -⟩
          cases h
        | cons d t =>
          rw [globMatch, Bool.and_eq_true, beq_iff_eq, hrest]
          constructor
          · rintro ⟨rfl, h⟩
            exact ⟨t, rfl, h⟩
          · rintro ⟨_, he, h⟩
            obtain ⟨rfl, rfl⟩ := List.cons_eq_cons.mp he
            exact ⟨rfl, h⟩

theorem matchPattern_iff (pattern target : Text) :
    matchPattern pattern target = true ↔ Means (· ≠ '\n') pattern target := by
  simp only [matchPattern, Means, anchored]
  generalize normalizePath pattern = p
  generalize normalizePath target = t
  by_cases hstar : '*' ∈ p
  · by_cases hslash : '/' ∈ p
    · simp only [List.contains_eq_mem, hstar, hslash, decide_true, Bool.not_true,
        Bool.false_eq_true, if_false, not_true_eq_false, and_false, doMatch_iff]
    · simp only [List.contains_eq_mem, hstar, hslash, decide_true, decide_false, Bool.not_true,
        Bool.not_false, Bool.false_eq_true, if_false, if_true, not_false_eq_true, and_self,
        doMatch_iff]
  · simp only [List.contains_eq_mem, hstar, decide_false, Bool.not_false, if_true, false_and,
      if_false, obtained_plain hstar, beq_iff_eq]

/-- Any pattern against any target: what `**` has to stand for contains no newline. -/
theorem matchPattern_means_iff (pattern target : Text) :
    (matchPattern pattern target = true ↔ Means (fun _ => True) pattern target) ↔
      (Means (fun _ => True) pattern target → Means (· ≠ '\n') pattern target) := by
  rw [matchPattern_iff]
  constructor
  · exact fun h => h.mpr
  · exact fun h => ⟨Obtained.mono fun _ _ => trivial, h⟩

/-- A target of one line is read as the rule says. -/
theorem matchPattern_line {pattern target : Text} (h : '\n' ∉ target) :
    matchPattern pattern target = true ↔ Means (fun _ => True) pattern target := by
  refine (matchPattern_means_iff pattern target).mpr fun hm => ?_
  have hline : '\n' ∉ normalizePath target := by
    intro hmem
    obtain ⟨c, hc, he⟩ := List.mem_map.mp hmem
    split at he
    · cases he
    · exact h (he ▸ hc)
  rw [Means] at hm ⊢
  generalize normalizePath target = t at hm hline
  generalize anchored (normalizePath pattern) = p at hm
  induction hm with
  | nil => exact .nil
  | lit hc _ ih => exact .lit hc (ih fun hmem => hline (List.mem_cons_of_mem _ hmem))
  | star hw hp _ ih => exact .star hw hp (ih fun hmem => hline (List.mem_append_right _ hmem))
  | stars _ _ ih =>
    exact .stars (fun c hc he => hline (List.mem_append_left _ (he ▸ hc)))
      (ih fun hmem => hline (List.mem_append_right _ hmem))

/-- A rule for everything below a directory misses a name with a newline in it. -/
theorem newline_missed :
    Means (fun _ => True) "/etc/**".toList "/etc/a\nb".toList ∧
      matchPattern "/etc/**".toList "/etc/a\nb".toList = false := by
  refine ⟨?_, by decide⟩
  have hstars : Obtained (fun _ => True) "**".toList ("a\nb".toList ++ []) :=
    .stars (fun _ _ => trivial) .nil
  exact .lit (by decide) (.lit (by decide) (.lit (by decide) (.lit (by decide) (.lit (by decide)
    hstars))))

end NemesisBot.Matcher
