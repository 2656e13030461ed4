import NemesisBot.Lib.Strings

/-! A text as its lines, each with the terminator that ends it: a line feed, a carriage return and
a line feed, or nothing at the end of the text. -/
namespace NemesisBot.Lines
open Strings

structure Line where
  text : Text
  term : Text
  deriving DecidableEq

def Line.whole (l : Line) : Text := l.text ++ l.term

def lf : Text := ['\n']

def crlf : Text := ['\r', '\n']

/-- The line that a line feed ends. -/
def ended (s : Text) : Line :=
  match stripSuffix ['\r'] s with
  | some text => ⟨text, crlf⟩
  | none => ⟨s, lf⟩

/-- The lines of a text whose first line has begun with `passed`. -/
def splitFrom (passed : Text) : Text → List Line
  | [] => if passed = [] then [] else [⟨passed, []⟩]
  | c :: s => if c = '\n' then ended passed :: splitFrom [] s else splitFrom (passed ++ [c]) s

def split (s : Text) : List Line := splitFrom [] s

def lines (s : Text) : List Text := (split s).map Line.text

/-- What is left of a line that ends at the terminator: a carriage return before a line feed is
taken for a part of the terminator. -/
def chomped (s term : Text) : Text :=
  if term = lf then (stripSuffix ['\r'] s).getD s else s

variable {s t : Text}

theorem stripSuffix_eq_some (h : stripSuffix ['\r'] s = some t) : s = t ++ ['\r'] := by
  rw [stripSuffix] at h
  split at h
  · rename_i hsuffix
    obtain ⟨u, rfl⟩ := hsuffix
    rw [List.length_append, Nat.add_sub_cancel, List.take_left] at h
    rw [Option.some.inj h]
  · cases h

theorem ended_whole (s : Text) : (ended s).whole = s ++ lf := by
  rw [ended]
  split
  · rename_i text h
    rw [stripSuffix_eq_some h, List.append_assoc]
    rfl
  · rfl

theorem ended_text (s : Text) : (ended s).text = chomped s lf := by
  rw [ended, chomped, if_pos rfl]
  split <;> rename_i h <;> rw [h] <;> rfl

theorem splitFrom_whole (passed s : Text) : (splitFrom passed s).flatMap Line.whole = passed ++ s := by
  induction s generalizing passed with
  | nil =>
    rw [splitFrom]
    split
    · rename_i h
      rw [h]
      rfl
    · rw [List.flatMap_singleton]
      rfl
  | cons c s ih =>
    rw [splitFrom]
    split
    · rename_i hc
      rw [List.flatMap_cons, ended_whole, ih, hc, List.append_assoc]
      rfl
    · rw [ih, List.append_assoc]
      rfl

/-- The lines make up the text. -/
theorem split_whole (s : Text) : (split s).flatMap Line.whole = s := splitFrom_whole [] s

theorem splitFrom_append {passed rest : Text} (h : '\n' ∉ s) :
    splitFrom passed (s ++ rest) = splitFrom (passed ++ s) rest := by
  induction s generalizing passed with
  | nil => rw [List.nil_append, List.append_nil]
  | cons c s ih =>
    obtain ⟨hc, hs⟩ := List.ne_and_not_mem_of_not_mem_cons h
    rw [List.cons_append, splitFrom, if_neg hc.symm, ih hs, List.append_assoc]
    rfl

theorem split_ended (h : '\n' ∉ s) (rest : Text) :
    split (s ++ lf ++ rest) = ended s :: split rest := by
  rw [split, List.append_assoc, splitFrom_append h, List.nil_append]
  exact if_pos rfl

theorem split_last (h : '\n' ∉ s) : split s = if s = [] then [] else [⟨s, []⟩] := by
  have hs := @splitFrom_append s [] [] h
  rwa [List.append_nil, List.nil_append] at hs

/-- The first line of a text, up to its terminator. -/
theorem lines_terminated (h : '\n' ∉ s) (ht : t = lf ∨ t = crlf) (rest : Text) :
    lines (s ++ t ++ rest) = chomped s t :: lines rest := by
  cases ht with
  | inl ht => rw [ht, lines, split_ended h, List.map_cons, ended_text, lines]
  | inr ht =>
    have hno : '\n' ∉ s ++ ['\r'] := by
      rw [List.mem_append, not_or]
      exact ⟨h, by decide⟩
    have hcut : s ++ t ++ rest = s ++ ['\r'] ++ lf ++ rest := by
      rw [ht, List.append_assoc s ['\r'] lf]
      rfl
    rw [hcut, lines, split_ended hno, List.map_cons, ended_text, chomped, if_pos rfl,
      stripSuffix_append, ht, chomped, if_neg (by decide)]
    rfl

theorem lines_last (h : '\n' ∉ s) : lines s = if s = [] then [] else [s] := by
  rw [lines, split_last h]
  split <;> rfl

/-- Lines with a terminator between them and another one at the end, as they are read again. -/
theorem lines_join {term last r : Text} {init : List Text} (hterm : term = lf ∨ term = crlf)
    (hlast : last = [] ∨ last = lf ∨ last = crlf) (hinit : ∀ l ∈ init, '\n' ∉ l) (hr : '\n' ∉ r) :
    lines (join term (init ++ [r]) ++ last) = init.map (chomped · term) ++
      if last = [] then (if r = [] then [] else [r]) else [chomped r last] := by
  induction init with
  | nil =>
    change lines (r ++ last) = _
    by_cases hnil : last = []
    · rw [if_pos hnil, hnil, List.append_nil, lines_last hr]
      rfl
    · have hend := lines_terminated hr (hlast.resolve_left hnil) []
      rw [List.append_nil] at hend
      rw [if_neg hnil, hend]
      rfl
  | cons l init ih =>
    obtain ⟨hl, hinit⟩ := List.forall_mem_cons.mp hinit
    rw [List.cons_append, join_cons (List.concat_ne_nil _ _), List.append_assoc, lines_terminated hl hterm,
      ih hinit]
    rfl

/-- A line without the end of a line in it. -/
structure Line.Sound (l : Line) : Prop where
  text : '\n' ∉ l.text
  term : l.term = [] ∨ l.term = lf ∨ l.term = crlf
  nonempty : l.term = [] → l.text ≠ []

theorem ended_sound (h : '\n' ∉ s) : (ended s).Sound := by
  rw [ended]
  split
  · rename_i text htext
    rw [stripSuffix_eq_some htext, List.mem_append, not_or] at h
    exact ⟨h.1, Or.inr (Or.inr rfl), nofun⟩
  · exact ⟨h, Or.inr (Or.inl rfl), nofun⟩

/-- Every line but the last has a terminator. -/
theorem splitFrom_sound {passed : Text} (h : '\n' ∉ passed) (s : Text) :
    (∀ l ∈ splitFrom passed s, l.Sound) ∧ (splitFrom passed s).Pairwise fun l _ => l.term ≠ [] := by
  induction s generalizing passed with
  | nil =>
    rw [splitFrom]
    split
    · exact ⟨nofun, .nil⟩
    · rename_i hne
      refine ⟨fun l hl => ?_, List.pairwise_singleton _ _⟩
      rw [List.mem_singleton.mp hl]
      exact ⟨h, Or.inl rfl, fun _ => hne⟩
  | cons c s ih =>
    rw [splitFrom]
    split
    · obtain ⟨hsound, hterm⟩ := @ih [] List.not_mem_nil
      refine ⟨List.forall_mem_cons.mpr ⟨ended_sound h, hsound⟩, List.Pairwise.cons (fun l _ => ?_) hterm⟩
      rw [ended]
      split <;> exact List.cons_ne_nil _ _
    · rename_i hc
      refine ih ?_
      rw [List.mem_append, not_or, List.mem_singleton]
      exact ⟨h, fun he => hc he.symm⟩

theorem lines_sound (s : Text) : ∀ l ∈ lines s, '\n' ∉ l := by
  intro l hl
  obtain ⟨line, hline, rfl⟩ := List.mem_map.mp hl
  exact ((splitFrom_sound List.not_mem_nil s).1 line hline).text

/-! Which lines a terminator changes. -/

theorem stripSuffix_getD (s : Text) : s.getLast? = some '\r' ∧
    s = (stripSuffix ['\r'] s).getD s ++ ['\r'] ∨
    s.getLast? ≠ some '\r' ∧ (stripSuffix ['\r'] s).getD s = s := by
  cases h : stripSuffix ['\r'] s with
  | some t =>
    rw [stripSuffix_eq_some h]
    exact Or.inl ⟨List.getLast?_concat, rfl⟩
  | none =>
    refine Or.inr ⟨fun hlast => ?_, rfl⟩
    obtain ⟨u, rfl⟩ := List.getLast?_eq_some_iff.mp hlast
    rw [stripSuffix_append] at h
    cases h

theorem chomped_eq_iff (s term : Text) :
    chomped s term = s ↔ ¬ (term = lf ∧ s.getLast? = some '\r') := by
  rw [chomped]
  split
  · rename_i hterm
    cases stripSuffix_getD s with
    | inl h =>
      refine iff_of_false (fun he => ?_) fun hno => hno ⟨hterm, h.1⟩
      have hlen := congrArg List.length h.2
      rw [he, List.length_append] at hlen
      exact absurd hlen (by simp)
    | inr h => exact iff_of_true h.2 fun hyes => h.1 hyes.2
  · rename_i hterm
    exact iff_of_true rfl fun hyes => hterm hyes.1

end NemesisBot.Lines
