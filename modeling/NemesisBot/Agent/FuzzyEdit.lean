import NemesisBot.Agent.EditLevels

/-! Which fuzzy edits insert the new lines as they are. -/
namespace NemesisBot.EditReplacers
open Strings Lines

def Level.exact : Level → Bool
  | .blockAnchor | .whitespaceNormalized | .trimmedBoundary => true
  | .lineTrimmed | .indentationFlexible => false

/-- The same line, or the same up to white space in front. -/
def SameLine (exact : Bool) (a b : Text) : Prop :=
  if exact then a = b else trimStart a = trimStart b

/-- The terminator takes a carriage return away from the line. -/
def Swallows (exact : Bool) (term l : Text) : Prop :=
  term = lf ∧ l.getLast? = some '\r' ∧ (exact = true ∨ trimStart l ≠ [])

theorem SameLine.refl (exact : Bool) (a : Text) : SameLine exact a a := by
  rw [SameLine]
  split <;> rfl

theorem getLast?_trimStart {s : Text} (h : trimStart s ≠ []) :
    (trimStart s).getLast? = s.getLast? := by
  conv_rhs => rw [← leadingWs_append s, List.getLast?_append_of_ne_nil _ h]

theorem SameLine.swallows_iff {exact : Bool} {a b : Text} (h : SameLine exact a b) (term : Text) :
    Swallows exact term a ↔ Swallows exact term b := by
  cases exact with
  | true => rw [show a = b from h]
  | false =>
    have hsame : trimStart a = trimStart b := h
    rw [Swallows, Swallows, hsame]
    refine and_congr_right fun _ => and_congr_left fun hne => ?_
    have hb := hne.resolve_left Bool.false_ne_true
    rw [← getLast?_trimStart hb, ← hsame, getLast?_trimStart (hsame ▸ hb)]

theorem trimStart_concat_return (s : Text) :
    trimStart (s ++ ['\r']) = if trimStart s = [] then [] else trimStart s ++ ['\r'] := by
  rw [trimStart, List.dropWhile_append, ← trimStart]
  cases trimStart s <;> rfl

/-- A line comes back after its terminator unless the terminator takes something from it. -/
theorem sameLine_chomped {exact : Bool} {a b : Text} (h : SameLine exact a b) (term : Text) :
    SameLine exact (chomped a term) b ↔ ¬ Swallows exact term b := by
  rw [← h.swallows_iff]
  cases exact with
  | true =>
    have hab : a = b := h
    rw [← hab]
    refine (chomped_eq_iff a term).trans (not_congr ?_)
    rw [Swallows]
    exact ⟨fun hs => ⟨hs.1, hs.2, Or.inl rfl⟩, fun hs => ⟨hs.1, hs.2.1⟩⟩
  | false =>
    have hab : trimStart a = trimStart b := h
    change trimStart (chomped a term) = trimStart b ↔ _
    rw [← hab, Swallows, chomped]
    split
    · rename_i hterm
      cases stripSuffix_getD a with
      | inl hstrip =>
        obtain ⟨hlast, ha⟩ := hstrip
        generalize (stripSuffix ['\r'] a).getD a = c at ha ⊢
        rw [ha, trimStart_concat_return]
        by_cases hc : trimStart c = []
        · rw [if_pos hc]
          exact iff_of_true hc fun hs => hs.2.2.elim Bool.false_ne_true fun hne => hne rfl
        · rw [if_neg hc]
          refine iff_of_false (fun he => ?_) fun hno => hno ⟨hterm, ?_, Or.inr ?_⟩
          · exact List.cons_ne_nil _ _ (List.self_eq_append_right.mp he)
          · rw [← ha, hlast]
          · exact List.concat_ne_nil _ _
      | inr hkeep =>
        rw [hkeep.2]
        exact iff_of_true rfl fun hs => hkeep.1 hs.2.1
    · rename_i hterm
      exact iff_of_true rfl fun hs => hterm hs.1

theorem forall₂_chomped {exact : Bool} {rs ns : List Text} (h : List.Forall₂ (SameLine exact) rs ns)
    (term : Text) : List.Forall₂ (SameLine exact) (rs.map (chomped · term)) ns ↔
      ∀ n ∈ ns, ¬ Swallows exact term n := by
  induction h with
  | nil => exact iff_of_true .nil nofun
  | cons hab _ ih =>
    rw [List.map_cons, List.forall₂_cons, List.forall_mem_cons, sameLine_chomped hab, ih]

theorem forall₂_concat {R : Text → Text → Prop} {xs ys zs : List Text} {y : Text}
    (h : xs.length = ys.length) :
    List.Forall₂ R (xs ++ zs) (ys ++ [y]) ↔ List.Forall₂ R xs ys ∧ List.Forall₂ R zs [y] := by
  induction xs generalizing ys with
  | nil =>
    obtain rfl := List.eq_nil_of_length_eq_zero h.symm
    exact (and_iff_right .nil).symm
  | cons x xs ih =>
    cases ys with
    | nil => cases h
    | cons a ys =>
      rw [List.cons_append, List.cons_append, List.forall₂_cons, List.forall₂_cons,
        ih (Nat.succ.inj h), and_assoc]

/-- The terminators of a span leave the lines put in its place as they are. -/
structure Fits (exact : Bool) (first last : Text) (init : List Text) (n : Text) : Prop where
  apart : first = [] → init = []
  inner : ∀ s ∈ init, ¬ Swallows exact first s
  outer : ¬ Swallows exact last n

theorem lines_join_nil {init : List Text} {r : Text} (hinit : ∀ l ∈ init, '\n' ∉ l)
    (hr : '\n' ∉ r) : (lines (join [] (init ++ [r]))).length ≤ 1 := by
  have hno : '\n' ∉ join [] (init ++ [r]) := by
    induction init with
    | nil => exact hr
    | cons l init ih =>
      obtain ⟨hl, hinit⟩ := List.forall_mem_cons.mp hinit
      rw [List.cons_append, join_cons (List.concat_ne_nil _ _), List.append_nil, List.mem_append,
        not_or]
      exact ⟨hl, ih hinit⟩
  rw [lines_last hno]
  split
  · exact Nat.zero_le 1
  · exact Nat.le_refl 1

/-- Lines that are put in the place of a span come back as the new lines exactly if the terminators
fit and the last of them is not lost at the end of the file. -/
theorem spliced_iff {exact : Bool} {f l : Line} {init ns : List Text} {r n : Text} (hf : f.Sound)
    (hl : l.Sound) (hfl : f.term = [] → l.term = []) (hinit : List.Forall₂ (SameLine exact) init ns)
    (hlast : SameLine exact r n) (hno : ∀ l ∈ init, '\n' ∉ l) (hr : '\n' ∉ r) :
    List.Forall₂ (SameLine exact) (lines (spliced f l (init ++ [r]))) (ns ++ [n]) ↔
      Fits exact f.term l.term ns n ∧ (l.term = [] → r ≠ []) := by
  rw [spliced, if_neg (List.concat_ne_nil _ _)]
  have hempty : l.term = [] → ¬ Swallows exact l.term n := by
    intro hnil hs
    rw [hnil] at hs
    cases hs.1
  -- what is read again of the last line
  have htail : List.Forall₂ (SameLine exact) (if l.term = [] then (if r = [] then [] else [r])
      else [chomped r l.term]) [n] ↔ ¬ Swallows exact l.term n ∧ (l.term = [] → r ≠ []) := by
    split
    · rename_i hnil
      split
      · rename_i hrnil
        refine iff_of_false (fun h => ?_) fun h => h.2 hnil hrnil
        cases h
      · rename_i hne
        exact iff_of_true (.cons hlast .nil) ⟨hempty hnil, fun _ => hne⟩
    · rename_i hterm
      rw [List.forall₂_cons, sameLine_chomped hlast]
      exact ⟨fun h => ⟨h.1, fun hnil => absurd hnil hterm⟩, fun h => ⟨h.1, .nil⟩⟩
  by_cases hterm : f.term = []
  · have hlterm := hfl hterm
    rw [hterm, hlterm, List.append_nil]
    cases hinit with
    | nil =>
      rw [hlterm, if_pos rfl] at htail
      change List.Forall₂ (SameLine exact) (lines r) [n] ↔ _
      rw [lines_last hr, htail]
      exact ⟨fun h => ⟨⟨fun _ => rfl, fun _ hs => absurd hs List.not_mem_nil, h.1⟩, h.2⟩,
        fun h => ⟨h.1.outer, h.2⟩⟩
    | @cons a b init ns hab hrest =>
      refine iff_of_false (fun h => ?_) fun h => List.cons_ne_nil _ _ (h.1.apart rfl)
      have hlen := h.length_eq
      have hle := lines_join_nil hno hr
      rw [List.length_append, List.length_cons] at hlen
      have hone : [n].length = 1 := rfl
      omega
  · rw [lines_join (hf.term.resolve_left hterm) hl.term hno hr,
      forall₂_concat (by rw [List.length_map, hinit.length_eq]), forall₂_chomped hinit, htail]
    exact ⟨fun h => ⟨⟨fun hnil => absurd hnil hterm, h.1, h.2.1⟩, h.2.2⟩,
      fun h => ⟨h.1.inner, h.1.outer, h.2⟩⟩

/-! What the levels make of the new lines. -/

theorem trimStart_leadingWs_append (w s : Text) : trimStart (leadingWs w ++ trimStart s) = trimStart s := by
  rw [@trimStart_append_left (leadingWs w) (trimStart s) (List.all_eq_true.mp List.all_takeWhile)]
  exact List.dropWhile_idempotent isWhitespace s

theorem zipIdx_sameLine {g : Text × Nat → Text} {exact : Bool} (h : ∀ l, SameLine exact (g l) l.1)
    (ns : List Text) (k : Nat) : List.Forall₂ (SameLine exact) ((ns.zipIdx k).map g) ns := by
  induction ns generalizing k with
  | nil => exact .nil
  | cons n ns ih => exact .cons (h (n, k)) (ih (k + 1))

/-- What must hold of the last new line for it not to be lost at the end of the file. -/
def Shows (level : Level) (l : Line) (n : Text) : Prop :=
  if level.exact then n ≠ [] else leadingWs l.text ≠ [] ∨ trimStart n ≠ []

section
variable {level : Level} {content oldText newText output : Text} {i j : Nat} {f l : Line}

theorem split_sound (h : (split content)[i]? = some l) : l.Sound :=
  (splitFrom_sound List.not_mem_nil content).1 l (List.mem_of_getElem? h)

theorem not_mem_textAt (content : Text) (k : Nat) : '\n' ∉ textAt (split content) k := by
  cases hget : (split content)[k]? with
  | none =>
    rw [textAt, hget]
    exact List.not_mem_nil
  | some l =>
    rw [textAt_eq hget]
    exact (split_sound hget).text

theorem Replaced.rebuilt_concat (h : Replaced level content oldText newText output i j f l)
    (hlevel : level ≠ .indentationFlexible) {ns : List Text} {n : Text}
    (hnew : lines newText = ns ++ [n]) : ∃ init r, level.rebuilt content newText i = init ++ [r] ∧
      List.Forall₂ (SameLine level.exact) init ns ∧ SameLine level.exact r n ∧
      (∀ l ∈ init, '\n' ∉ l) ∧ '\n' ∉ r ∧ (r ≠ [] ↔ Shows level l n) := by
  have hno := lines_sound newText
  rw [hnew] at hno
  have hinit : ∀ l ∈ ns, '\n' ∉ l := fun l hl => hno l (List.mem_append_left _ hl)
  have hlast : '\n' ∉ n := hno n (List.mem_concat_self)
  have hexact (hrebuilt : level.rebuilt content newText i = lines newText)
      (hshows : Shows level l n ↔ n ≠ []) : ∃ init r, level.rebuilt content newText i = init ++ [r] ∧
      List.Forall₂ (SameLine level.exact) init ns ∧ SameLine level.exact r n ∧
      (∀ l ∈ init, '\n' ∉ l) ∧ '\n' ∉ r ∧ (r ≠ [] ↔ Shows level l n) :=
    ⟨ns, n, hrebuilt.trans hnew, List.forall₂_same.mpr fun l _ => .refl _ l, .refl _ n, hinit, hlast,
      hshows.symm⟩
  cases level with
  | indentationFlexible => exact absurd rfl hlevel
  | blockAnchor => exact hexact rfl Iff.rfl
  | whitespaceNormalized => exact hexact rfl Iff.rfl
  | trimmedBoundary => exact hexact rfl Iff.rfl
  | lineTrimmed =>
    have hcount := h.count rfl
    rw [hnew, List.length_append] at hcount
    have hj : textAt (split content) (i + ns.length) = l.text := by
      obtain rfl : i + ns.length = j := Nat.succ.inj hcount
      exact textAt_eq h.last
    let g (s : Text × Nat) : Text := leadingWs (textAt (split content) (i + s.2)) ++ trimStart s.1
    have hg (s : Text × Nat) : SameLine false (g s) s.1 := trimStart_leadingWs_append _ _
    have hclear {s : Text} (k : Nat) (hs : '\n' ∉ s) : '\n' ∉ g (s, k) := by
      intro hmem
      cases List.mem_append.mp hmem with
      | inl hlead => exact not_mem_textAt _ _ ((List.takeWhile_prefix isWhitespace).subset hlead)
      | inr hrest => exact hs ((List.dropWhile_suffix isWhitespace).subset hrest)
    refine ⟨(ns.zipIdx).map g, g (n, ns.length), ?_, zipIdx_sameLine hg ns 0, hg _, ?_,
      hclear _ hlast, ?_⟩
    · rw [Level.rebuilt, indented, hnew, List.zipIdx_append, List.map_append, Nat.zero_add]
      rfl
    · intro s hs
      obtain ⟨⟨t, k⟩, ht, rfl⟩ := List.mem_map.mp hs
      exact hclear k (hinit t (List.mem_of_getElem? (List.mem_zipIdx_iff_getElem?.mp ht)))
    · change leadingWs (textAt (split content) (i + ns.length)) ++ trimStart n ≠ [] ↔
        leadingWs l.text ≠ [] ∨ trimStart n ≠ []
      rw [hj, Ne, List.append_eq_nil_iff, not_and_or]

/-- The span's terminators leave the new lines apart, whole and visible. -/
structure Unglued (level : Level) (f l : Line) (newLines : List Text) : Prop where
  apart : f.term = [] → newLines.length ≤ 1
  inner : ∀ s ∈ newLines.dropLast, ¬ Swallows level.exact f.term s
  outer : ∀ s ∈ newLines.getLast?, ¬ Swallows level.exact l.term s
  shown : l.term = [] → ∀ s ∈ newLines.getLast?, Shows level l s

theorem unglued_concat {ns : List Text} {n : Text} : Unglued level f l (ns ++ [n]) ↔
    Fits level.exact f.term l.term ns n ∧ (l.term = [] → Shows level l n) := by
  have hlast : (ns ++ [n]).getLast? = some n := List.getLast?_concat
  have hinit : (ns ++ [n]).dropLast = ns := List.dropLast_concat
  constructor
  · rintro ⟨hapart, hinner, houter, hshown⟩
    rw [hinit] at hinner
    refine ⟨⟨fun hnil => ?_, hinner, houter n hlast⟩, fun hnil => hshown hnil n hlast⟩
    have hle := hapart hnil
    rw [List.length_append] at hle
    exact List.eq_nil_of_length_eq_zero (Nat.le_zero.mp (Nat.le_of_succ_le_succ hle))
  · rintro ⟨hfits, hshown⟩
    refine ⟨fun hnil => ?_, ?_, fun s hs => ?_, fun hnil s hs => ?_⟩
    · rw [hfits.apart hnil]
      exact Nat.le_refl 1
    · rw [hinit]
      exact hfits.inner
    · obtain rfl := Option.some.inj (hlast.symm.trans hs)
      exact hfits.outer
    · obtain rfl := Option.some.inj (hlast.symm.trans hs)
      exact hshown hnil

/-- The lines of the inserted text are the new lines, in order and number. -/
def KeepsLines (level : Level) (newText inserted : Text) : Prop :=
  List.Forall₂ (SameLine level.exact) (lines inserted) (lines newText)

theorem Replaced.keepsLines_iff (h : Replaced level content oldText newText output i j f l)
    (hlevel : level ≠ .indentationFlexible) :
    KeepsLines level newText (spliced f l (level.rebuilt content newText i)) ↔
      Unglued level f l (lines newText) := by
  rw [KeepsLines]
  by_cases hnil : lines newText = []
  · have hrebuilt : level.rebuilt content newText i = [] := by
      cases level <;> simp only [Level.rebuilt, indented, hnil, List.zipIdx_nil, List.map_nil]
    rw [hrebuilt, hnil]
    exact iff_of_true .nil ⟨fun _ => Nat.zero_le 1, nofun, nofun, fun _ => nofun⟩
  obtain ⟨ns, n, hnew⟩ : ∃ ns n, lines newText = ns ++ [n] :=
    ⟨_, _, (List.dropLast_append_getLast hnil).symm⟩
  obtain ⟨init, r, hrebuilt, hinit, hlast, hno, hr, hshows⟩ := h.rebuilt_concat hlevel hnew
  have hfl : f.term = [] → l.term = [] := by
    intro hterm
    obtain hlt | heq := Nat.lt_or_eq_of_le h.ordered
    · obtain ⟨hi, hf⟩ := List.getElem?_eq_some_iff.mp h.first
      obtain ⟨hj, -⟩ := List.getElem?_eq_some_iff.mp h.last
      have hterms : (split content).Pairwise fun l _ => l.term ≠ [] :=
        (splitFrom_sound List.not_mem_nil content).2
      have hne := List.pairwise_iff_getElem.mp hterms i j hi hj hlt
      rw [hf] at hne
      exact absurd hterm hne
    · have hfirst := h.first
      rw [heq, h.last] at hfirst
      rw [Option.some.inj hfirst, hterm]
  rw [hrebuilt, hnew, spliced_iff (split_sound h.first) (split_sound h.last) hfl hinit hlast hno hr,
    unglued_concat, hshows]

end

/-! The cascade. -/

/-- The match comes from a level before which every other one missed. -/
theorem runLevels_spec {content oldText newText : Text} {levels : List Level}
    (h : ∀ level ∈ levels, ∃ outcome, level.run content oldText newText = some outcome)
    (disproportion : Option (Nat × Nat)) :
    ∃ res, runLevels content oldText newText levels disproportion = some res ∧
      ∀ m, res = .ok m → ∃ pre post, levels = pre ++ m.level :: post ∧
        m.level.run content oldText newText = some (.ok (.found m.content)) ∧
        ∀ level ∈ pre, ∃ outcome, level.run content oldText newText = some (.ok outcome) ∧
          ∀ output, outcome ≠ .found output := by
  induction levels generalizing disproportion with
  | nil => exact ⟨_, rfl, nofun⟩
  | cons level levels ih =>
    obtain ⟨⟨outcome, hrun⟩, hrest⟩ := List.forall_mem_cons.mp h
    have hmiss {o : LevelOutcome} (ho : level.run content oldText newText = some (.ok o))
        (hno : ∀ output, o ≠ .found output) (d : Option (Nat × Nat)) :
        ∃ res, runLevels content oldText newText levels d = some res ∧
          ∀ m, res = .ok m → ∃ pre post, level :: levels = pre ++ m.level :: post ∧
            m.level.run content oldText newText = some (.ok (.found m.content)) ∧
            ∀ level ∈ pre, ∃ outcome, level.run content oldText newText = some (.ok outcome) ∧
              ∀ output, outcome ≠ .found output := by
      obtain ⟨res, hres, hok⟩ := ih hrest d
      refine ⟨res, hres, fun m hm => ?_⟩
      obtain ⟨pre, post, hlevels, hfound, hpre⟩ := hok m hm
      exact ⟨level :: pre, post, congrArg (level :: ·) hlevels, hfound,
        List.forall_mem_cons.mpr ⟨⟨o, ho, hno⟩, hpre⟩⟩
    rw [runLevels, hrun]
    cases outcome with
    | error msg => exact ⟨_, rfl, nofun⟩
    | ok o =>
      cases o with
      | found output =>
        refine ⟨_, rfl, fun m hm => ?_⟩
        obtain rfl := Except.ok.inj hm
        exact ⟨[], levels, rfl, hrun, nofun⟩
      | noCandidate => exact hmiss hrun nofun disproportion
      | disproportionate b limit => exact hmiss hrun nofun (some (b, limit))

/-- The cascade goes through; a match replaces the only candidate of its level, which is not the
one that shifts the indentation. -/
theorem cascadeReplace_spec (content oldText newText : Text) :
    ∃ res, cascadeReplace content oldText newText = some res ∧
      ∀ output level, res = .ok ⟨output, level⟩ → level ≠ .indentationFlexible ∧
        ∃ i j f l, Replaced level content oldText newText output i j f l := by
  obtain ⟨trimmed, htrimmed, htrimmedOk⟩ := @lineTrimmed_replaced content oldText newText
  obtain ⟨anchored, hanchored, hanchoredOk⟩ := @blockAnchor_replaced content oldText newText
  obtain ⟨folded, hfolded, hfoldedOk⟩ := @whitespaceNormalized_replaced content oldText newText
  obtain ⟨shift, hshift, hshiftOk⟩ := @indentationFlexible_missed content oldText newText
  obtain ⟨core, hcore, hcoreOk⟩ := @trimmedBoundary_replaced content oldText newText
  rw [cascadeReplace]
  split
  · exact ⟨_, rfl, nofun⟩
  obtain ⟨res, hres, hok⟩ := @runLevels_spec content oldText newText
    [.lineTrimmed, .blockAnchor, .whitespaceNormalized, .indentationFlexible, .trimmedBoundary]
    (fun level _ => by
      cases level with
      | lineTrimmed => exact ⟨_, htrimmed⟩
      | blockAnchor => exact ⟨_, hanchored⟩
      | whitespaceNormalized => exact ⟨_, hfolded⟩
      | indentationFlexible => exact ⟨_, hshift⟩
      | trimmedBoundary => exact ⟨_, hcore⟩) none
  refine ⟨res, hres, fun output level he => ?_⟩
  obtain ⟨pre, post, hlevels, hfound, hpre⟩ := hok _ he
  cases level with
  | lineTrimmed => exact ⟨nofun, htrimmedOk output (Option.some.inj (htrimmed.symm.trans hfound))⟩
  | blockAnchor => exact ⟨nofun, hanchoredOk output (Option.some.inj (hanchored.symm.trans hfound))⟩
  | whitespaceNormalized =>
    exact ⟨nofun, hfoldedOk output (Option.some.inj (hfolded.symm.trans hfound))⟩
  | trimmedBoundary => exact ⟨nofun, hcoreOk output (Option.some.inj (hcore.symm.trans hfound))⟩
  | indentationFlexible =>
    -- the level that folds white space has missed before
    have hmem : Level.whitespaceNormalized ∈ pre := by
      match pre, hlevels with
      | [], he => cases he
      | [a], he => cases he
      | [a, b], he => cases he
      | a :: b :: c :: pre, he =>
        simp only [List.cons_append, List.cons.injEq] at he
        rw [← he.2.2.1]
        exact List.mem_cons_of_mem a (List.mem_cons_of_mem b List.mem_cons_self)
    obtain ⟨outcome, hrun, hmissed⟩ := hpre _ hmem
    obtain ⟨folded', hfolded', hdecided⟩ := @whitespaceNormalized_decided content oldText newText
    have hsame := Option.some.inj (hfolded'.symm.trans hrun)
    have hlarge := hdecided.missed outcome hsame hmissed
    exact absurd (Option.some.inj (hshift.symm.trans hfound)) (hshiftOk hlarge output)

/-- One span of whole lines of the content has been replaced: the only one in the limit that the
level takes. -/
structure EditsOneSpan (level : Level) (content oldText output : Text) (i j : Nat) (f l : Line)
    (inserted : Text) : Prop where
  ordered : i ≤ j
  first : (split content)[i]? = some f
  last : (split content)[j]? = some l
  before : content = whole ((split content).take i) ++
    (whole (block (split content) i j) ++ whole ((split content).drop (j + 1)))
  after : output = whole ((split content).take i) ++
    (inserted ++ whole ((split content).drop (j + 1)))
  candidate : level.Candidate content oldText i j
  within : size content (i, j) ≤ spanLimit oldText
  unique : ∀ i' j', level.Candidate content oldText i' j' →
    size content (i', j') ≤ spanLimit oldText → (i', j') = (i, j)

/-- A fuzzy edit stays in bounds and touches one span; what it inserts are the new lines exactly if
the terminators of the span do not glue, swallow or hide them. -/
theorem fuzzy_edit_iff (content oldText newText : Text) :
    ∃ res, cascadeReplace content oldText newText = some res ∧
      ∀ output level, res = .ok ⟨output, level⟩ → ∃ i j f l inserted,
        EditsOneSpan level content oldText output i j f l inserted ∧
        (KeepsLines level newText inserted ↔ Unglued level f l (lines newText)) := by
  obtain ⟨res, hres, hok⟩ := cascadeReplace_spec content oldText newText
  refine ⟨res, hres, fun output level he => ?_⟩
  obtain ⟨hlevel, i, j, f, l, h⟩ := hok output level he
  have hij := h.ordered
  exact ⟨i, j, f, l, _, ⟨hij, h.first, h.last, content_split (by omega), h.output, h.candidate,
    h.within, h.unique⟩, h.keepsLines_iff hlevel⟩

def tabbed : Text := "fn a() \x7b\r\n\treturn 1;".toList

theorem fuzzy_edit_tabbed : ∃ i j f l inserted,
    EditsOneSpan .lineTrimmed tabbed "  return 1;".toList "fn a() \x7b\r\n\treturn 2;".toList
      i j f l inserted ∧
    (KeepsLines .lineTrimmed "return 2;".toList inserted ↔
      Unglued .lineTrimmed f l (lines "return 2;".toList)) := by
  obtain ⟨res, hres, hok⟩ := fuzzy_edit_iff tabbed "  return 1;".toList "return 2;".toList
  have hrun : cascadeReplace tabbed "  return 1;".toList "return 2;".toList =
      some (.ok ⟨"fn a() \x7b\r\n\treturn 2;".toList, .lineTrimmed⟩) := by decide +kernel
  exact hok _ _ (Option.some.inj (hres.symm.trans hrun))

/-- Two new lines for the last line of a file that does not end in a line feed: they are glued. -/
theorem fuzzy_edit_not : ¬ ∀ content oldText newText output level,
    cascadeReplace content oldText newText = some (.ok ⟨output, level⟩) →
    ∃ i j f l inserted, EditsOneSpan level content oldText output i j f l inserted ∧
      KeepsLines level newText inserted := by
  intro hkeeps
  have hrun : cascadeReplace "foo  bar".toList "foo bar".toList "a\nb".toList =
      some (.ok ⟨"ab".toList, .whitespaceNormalized⟩) := by decide +kernel
  obtain ⟨i, j, f, l, inserted, hspan, hlines⟩ := hkeeps _ _ _ _ _ hrun
  have hone : (split "foo  bar".toList).length = 1 := by decide +kernel
  have hj := (List.getElem?_eq_some_iff.mp hspan.last).1
  have hij := hspan.ordered
  obtain rfl : j = 0 := by omega
  obtain rfl : i = 0 := by omega
  have hout := hspan.after
  rw [List.drop_of_length_le (Nat.le_of_eq hone)] at hout
  change "ab".toList = [] ++ (inserted ++ []) at hout
  rw [List.nil_append, List.append_nil] at hout
  rw [KeepsLines, ← hout] at hlines
  have hlen := hlines.length_eq
  exact absurd hlen (by decide +kernel)

end NemesisBot.EditReplacers
