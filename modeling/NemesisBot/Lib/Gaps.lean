import Mathlib

/-! Texts with cuts in them. The stretches between the cuts are trimmed and put together again with
a separator, so two ways of cutting a text show in its gaps. -/
namespace NemesisBot.Gaps
variable {α : Type*}

/-- A text in which `none` is a cut. -/
abbrev Marked (α : Type*) := List (Option α)

/-- What lies before a visible character: whether it is cut, and the blanks of the text. -/
structure Gap (α : Type*) where
  cut : Bool
  white : List α
  next : α

section Blank
variable (blank : α → Bool)

/-- The gaps of a text, behind a gap that has begun. -/
def gapsFrom : Bool → List α → Marked α → List (Gap α)
  | _, _, [] => []
  | _, white, none :: m => gapsFrom true white m
  | cut, white, some c :: m =>
    if blank c then gapsFrom cut (white ++ [c]) m else ⟨cut, white, c⟩ :: gapsFrom false [] m

def gaps (m : Marked α) : List (Gap α) := gapsFrom blank false [] m

/-- Whether the gap at the end is cut. -/
def endCut : Bool → Marked α → Bool
  | cut, [] => cut
  | _, none :: m => endCut true m
  | cut, some c :: m => endCut (blank c && cut) m

/-- The blanks of the gap at the end. -/
def endWhite : List α → Marked α → List α
  | white, [] => white
  | white, none :: m => endWhite white m
  | white, some c :: m => endWhite (if blank c then white ++ [c] else []) m

theorem gapsFrom_append (cut : Bool) (white : List α) (m m' : Marked α) :
    gapsFrom blank cut white (m ++ m') = gapsFrom blank cut white m ++
      gapsFrom blank (endCut blank cut m) (endWhite blank white m) m' := by
  induction m generalizing cut white with
  | nil => rfl
  | cons x m ih =>
    cases x with
    | none => exact ih true white
    | some c =>
      rw [List.cons_append, gapsFrom, gapsFrom, endCut, endWhite]
      by_cases hc : blank c
      · rw [if_pos hc, if_pos hc, if_pos hc, hc, Bool.true_and, ih]
      · rw [if_neg hc, if_neg hc, if_neg hc, ih, Bool.eq_false_of_not_eq_true hc,
          Bool.false_and]
        rfl

theorem endWhite_blank {white : List α} (h : ∀ c ∈ white, blank c) (m : Marked α) :
    ∀ c ∈ endWhite blank white m, blank c := by
  induction m generalizing white with
  | nil => exact h
  | cons x m ih =>
    cases x with
    | none => exact ih h
    | some c =>
      refine ih ?_
      split
      · rename_i hc
        exact List.forall_mem_append.mpr ⟨h, by simpa using hc⟩
      · simp

/-! The text decides all of the gaps but the cuts. -/

theorem reduceOption_map_some (s : List α) : (s.map some).reduceOption = s := by
  induction s with
  | nil => rfl
  | cons c s ih => rw [List.map_cons, List.reduceOption_cons_of_some, ih]

theorem gapsFrom_text {cut cut' : Bool} {white : List α} {m m' : Marked α}
    (h : m.reduceOption = m'.reduceOption) :
    (gapsFrom blank cut white m).map (fun g => (g.white, g.next)) =
      (gapsFrom blank cut' white m').map fun g => (g.white, g.next) := by
  -- both sides are the gaps of the text without cuts
  have hplain (cut : Bool) (white : List α) (m : Marked α) :
      (gapsFrom blank cut white m).map (fun g => (g.white, g.next)) =
        (gapsFrom blank false white (m.reduceOption.map some)).map fun g => (g.white, g.next) := by
    induction m generalizing cut white with
    | nil => rfl
    | cons x m ih =>
      cases x with
      | none => exact ih true white
      | some c =>
        rw [List.reduceOption_cons_of_some, List.map_cons, gapsFrom, gapsFrom]
        by_cases hc : blank c
        · rw [if_pos hc, if_pos hc]
          exact ih cut _
        · rw [if_neg hc, if_neg hc, List.map_cons, List.map_cons]
          exact congrArg _ (ih false [])
  rw [hplain, h, ← hplain]

theorem gapsFrom_spec {cut : Bool} {white : List α} (h : ∀ c ∈ white, blank c) (m : Marked α) :
    ∀ g ∈ gapsFrom blank cut white m, (∀ c ∈ g.white, blank c) ∧ blank g.next = false := by
  induction m generalizing cut white with
  | nil => simp [gapsFrom]
  | cons x m ih =>
    cases x with
    | none => exact ih h
    | some c =>
      rw [gapsFrom]
      by_cases hc : blank c
      · rw [if_pos hc]
        exact ih (List.forall_mem_append.mpr ⟨h, by simpa using hc⟩)
      · rw [if_neg hc]
        exact List.forall_mem_cons.mpr
          ⟨⟨h, Bool.eq_false_of_not_eq_true hc⟩, ih (by simp)⟩

end Blank

/-! What is shown of the gaps. -/

section Shown
variable (sep : List α)

def Gap.shown (g : Gap α) : List α := (if g.cut then sep else g.white) ++ [g.next]

/-- Blanks and cuts in front and at the end are not shown. -/
def shown : List (Gap α) → List α
  | [] => []
  | g :: gs => g.next :: gs.flatMap (Gap.shown sep)

/-- The gap looks the same with and without the other's cut. -/
def Alike (g g' : Gap α) : Prop := g.cut = g'.cut ∨ g.white = sep

variable {sep} {blank : α → Bool}

/-- A run of blanks ends at the first visible character. -/
theorem blanks_unique {w w' r r' : List α} {c : α} (hw : ∀ d ∈ w, blank d)
    (hw' : ∀ d ∈ w', blank d) (hc : blank c = false) (h : w ++ c :: r = w' ++ c :: r') :
    w = w' ∧ r = r' := by
  have htake (w r : List α) (hw : ∀ d ∈ w, blank d) : (w ++ c :: r).takeWhile blank = w := by
    rw [List.takeWhile_append_of_pos hw, List.takeWhile_cons_of_neg (by simp [hc]),
      List.append_nil]
  have heq : w = w' := by rw [← htake w r hw, h, htake w' r' hw']
  subst heq
  exact ⟨rfl, (List.cons.inj (List.append_cancel_left h)).2⟩

/-- The gaps of one text are shown alike exactly when each pair of them is. -/
theorem flatMap_shown_eq (hsep : ∀ c ∈ sep, blank c) {gs gs' : List (Gap α)}
    (hgs : ∀ g ∈ gs, (∀ c ∈ g.white, blank c) ∧ blank g.next = false)
    (htext : gs.map (fun g => (g.white, g.next)) = gs'.map fun g => (g.white, g.next)) :
    gs.flatMap (Gap.shown sep) = gs'.flatMap (Gap.shown sep) ↔
      List.Forall₂ (Alike sep) gs gs' := by
  induction gs generalizing gs' with
  | nil =>
    cases gs' with
    | nil => exact iff_of_true rfl .nil
    | cons g' gs' => cases htext
  | cons g gs ih =>
    cases gs' with
    | nil => cases htext
    | cons g' gs' =>
      obtain ⟨hpair, hrest⟩ := List.cons.inj htext
      obtain ⟨hwhite, hnext⟩ := Prod.mk.inj hpair
      obtain ⟨⟨hblank, hvisible⟩, htail⟩ := List.forall_mem_cons.mp hgs
      have hshow (x : Gap α) (hx : ∀ c ∈ x.white, blank c) :
          ∀ c ∈ (if x.cut then sep else x.white), blank c := by
        split
        · exact hsep
        · exact hx
      rw [List.forall₂_cons, ← ih htail hrest, List.flatMap_cons, List.flatMap_cons,
        Gap.shown, Gap.shown, ← hnext, List.append_assoc, List.append_assoc]
      have hhead : (if g.cut then sep else g.white) = (if g'.cut then sep else g'.white) ↔
          Alike sep g g' := by
        rw [Alike, ← hwhite]
        cases g.cut <;> cases g'.cut <;> simp [eq_comm]
      constructor
      · intro h
        obtain ⟨hw, hr⟩ := blanks_unique (hshow g hblank) (hshow g' (hwhite ▸ hblank)) hvisible h
        exact ⟨hhead.mp hw, hr⟩
      · rintro ⟨hw, hr⟩
        rw [hhead.mpr hw, hr]

theorem shown_eq_iff (hsep : ∀ c ∈ sep, blank c) {m m' : Marked α}
    (htext : m.reduceOption = m'.reduceOption) :
    shown sep (gaps blank m) = shown sep (gaps blank m') ↔
      List.Forall₂ (Alike sep) (gaps blank m).tail (gaps blank m').tail := by
  have hgaps : (gaps blank m).map (fun g => (g.white, g.next)) =
      (gaps blank m').map fun g => (g.white, g.next) := gapsFrom_text blank htext
  have hspec : ∀ g ∈ gaps blank m, (∀ c ∈ g.white, blank c) ∧ blank g.next = false :=
    gapsFrom_spec blank (by simp) m
  cases h : gaps blank m with
  | nil =>
    rw [h] at hgaps
    rw [List.map_eq_nil_iff.mp hgaps.symm]
    exact iff_of_true rfl .nil
  | cons g gs =>
    rw [h] at hgaps hspec
    cases h' : gaps blank m' with
    | nil =>
      rw [h'] at hgaps
      cases hgaps
    | cons g' gs' =>
      rw [h'] at hgaps
      obtain ⟨hpair, hrest⟩ := List.cons.inj hgaps
      rw [shown, shown, (Prod.mk.inj hpair).2, List.cons.injEq, List.tail_cons, List.tail_cons,
        ← flatMap_shown_eq hsep (List.forall_mem_cons.mp hspec).2 hrest]
      exact and_iff_right rfl

/-! Stretches one after another. -/

/-- Without the blanks at both ends. -/
def trimmed (blank : α → Bool) (s : List α) : List α := (s.dropWhile blank).rdropWhile blank

variable (sep blank) in
/-- A trimmed stretch behind what is there, if anything is left of it. -/
def addPiece [DecidableEq α] (acc piece : List α) : List α :=
  if trimmed blank piece = [] then acc
  else if acc = [] then trimmed blank piece
  else acc ++ sep ++ trimmed blank piece

theorem rdropWhile_visible {w s : List α} {c : α} (hc : blank c = false) :
    (w ++ c :: s).rdropWhile blank = w ++ c :: s.rdropWhile blank := by
  have hc' : (w ++ [c]).reverse.dropWhile blank = (w ++ [c]).reverse := by simp [hc]
  rw [List.append_cons, List.rdropWhile, List.reverse_append, List.dropWhile_append]
  by_cases hs : (s.reverse.dropWhile blank).isEmpty
  · rw [if_pos hs, hc', List.reverse_reverse, List.rdropWhile, List.isEmpty_iff.mp hs]
    rfl
  · rw [if_neg hs, List.reverse_append, List.reverse_reverse, ← List.rdropWhile, ← List.append_cons]

theorem flatMap_gaps {white : List α} (h : ∀ c ∈ white, blank c) (s : List α) :
    (gapsFrom blank false white (s.map some)).flatMap (Gap.shown sep) =
      (white ++ s).rdropWhile blank := by
  induction s generalizing white with
  | nil =>
    rw [List.append_nil, List.rdropWhile_eq_nil_iff.mpr h]
    rfl
  | cons c s ih =>
    rw [List.map_cons, gapsFrom]
    by_cases hc : blank c
    · rw [if_pos hc, ih (List.forall_mem_append.mpr ⟨h, by simpa using hc⟩), ← List.append_cons]
    · rw [if_neg hc, List.flatMap_cons, ih (by simp),
        rdropWhile_visible (Bool.eq_false_of_not_eq_true hc)]
      simp [Gap.shown]

/-- The blanks in front of a stretch belong to the gap that has begun. -/
theorem gapsFrom_dropWhile (cut : Bool) (white s : List α) :
    gapsFrom blank cut white (s.map some) = gapsFrom blank cut (white ++ s.takeWhile blank)
      ((s.dropWhile blank).map some) := by
  induction s generalizing white with
  | nil => simp
  | cons c s ih =>
    by_cases hc : blank c
    · rw [List.map_cons, gapsFrom, if_pos hc, ih, List.takeWhile_cons_of_pos hc,
        List.dropWhile_cons_of_pos hc, ← List.append_cons]
    · rw [List.takeWhile_cons_of_neg hc, List.dropWhile_cons_of_neg hc, List.append_nil]

/-- A stretch behind a cut is added trimmed. -/
theorem shown_append [DecidableEq α] (m : Marked α) (piece : List α) :
    shown sep (gaps blank (m ++ none :: piece.map some)) =
      addPiece sep blank (shown sep (gaps blank m)) piece := by
  rw [gaps, gapsFrom_append, gapsFrom, gapsFrom_dropWhile, ← gaps, addPiece, trimmed]
  cases hrest : piece.dropWhile blank with
  | nil =>
    rw [List.rdropWhile_nil, if_pos rfl, List.map_nil, gapsFrom, List.append_nil]
  | cons c rest =>
    have hc : blank c = false := by
      have := List.head_dropWhile_not blank (by rw [hrest]; exact List.cons_ne_nil c rest)
      simpa [hrest] using this
    have htrim : (c :: rest).rdropWhile blank = c :: rest.rdropWhile blank := by
      simpa using rdropWhile_visible (w := []) (s := rest) hc
    have hflat : (gapsFrom blank false [] (rest.map some)).flatMap (Gap.shown sep) =
        rest.rdropWhile blank := by
      have hnone : ∀ c ∈ ([] : List α), blank c := by simp
      simpa using flatMap_gaps hnone rest
    rw [htrim, if_neg (List.cons_ne_nil _ _), List.map_cons, gapsFrom,
      if_neg (by simp [hc])]
    cases gaps blank m with
    | nil =>
      rw [List.nil_append, shown, shown, hflat]
      rfl
    | cons g gs =>
      rw [List.cons_append, shown, shown, if_neg (List.cons_ne_nil _ _), List.flatMap_append,
        List.flatMap_cons, hflat]
      simp [Gap.shown]

end Shown

end NemesisBot.Gaps
