import NemesisBot.Providers.ThinkStrip
import NemesisBot.Lib.Gaps

/-! One pass over a reply, as far as it is decided. Both ways of taking the thinking out are this
pass. -/
namespace NemesisBot.Providers
open Strings Gaps

/-- The tag that ends this part of the reply. -/
def StripState.tag : StripState → Text
  | .plain => openTag
  | .inThink => closeTag

def StripState.other : StripState → StripState
  | .plain => .inThink
  | .inThink => .plain

/-- A character of the content or of a block, or a tag. -/
inductive Token where
  | char (state : StripState) (c : Char)
  | mark (state : StripState)
  deriving DecidableEq

/-- What has been decided, and the rest that a tag may begin with. -/
structure Scan where
  tokens : List Token
  state : StripState
  held : Text

def Scan.push (t : Token) (r : Scan) : Scan := { r with tokens := t :: r.tokens }

theorem StripState.tag_ne_nil (st : StripState) : st.tag ≠ [] := by
  cases st <;> decide

theorem StripState.drop_lt {st : StripState} {s : Text} (h : st.tag <+: s) :
    (s.drop st.tag.length).length < s.length := by
  have hpos := List.length_pos_of_ne_nil st.tag_ne_nil
  have hle := h.length_le
  rw [List.length_drop]
  omega

def scan (st : StripState) (s : Text) : Scan :=
  if _h : st.tag <+: s then (scan st.other (s.drop st.tag.length)).push (.mark st)
  else if s <+: st.tag then ⟨[], st, s⟩
  else match s with
    | [] => ⟨[], st, []⟩
    | c :: rest => (scan st rest).push (.char st c)
termination_by s.length
decreasing_by
  · exact StripState.drop_lt _h
  · simp

theorem scan_tag {st : StripState} {s : Text} (h : st.tag <+: s) :
    scan st s = (scan st.other (s.drop st.tag.length)).push (.mark st) := by
  rw [scan, dif_pos h]

theorem scan_held {st : StripState} {s : Text} (h : ¬ st.tag <+: s) (hs : s <+: st.tag) :
    scan st s = ⟨[], st, s⟩ := by
  rw [scan, dif_neg h, if_pos hs]

theorem scan_char {st : StripState} {c : Char} {rest : Text} (h : ¬ st.tag <+: c :: rest)
    (hs : ¬ c :: rest <+: st.tag) : scan st (c :: rest) = (scan st rest).push (.char st c) := by
  rw [scan, dif_neg h, if_neg hs]

/-- The pass along a text: a tag, a rest that may become one, or a character. -/
theorem scan_induction {motive : StripState → Text → Prop}
    (tag : ∀ st s, st.tag <+: s → motive st.other (s.drop st.tag.length) → motive st s)
    (held : ∀ st s, ¬ st.tag <+: s → s <+: st.tag → motive st s)
    (char : ∀ st c rest, ¬ st.tag <+: c :: rest → ¬ c :: rest <+: st.tag → motive st rest →
      motive st (c :: rest)) (st : StripState) (s : Text) : motive st s := by
  induction hn : s.length using Nat.strong_induction_on generalizing st s with
  | _ n ih =>
    subst hn
    by_cases ht : st.tag <+: s
    · exact tag st s ht (ih _ (StripState.drop_lt ht) _ _ rfl)
    · by_cases hs : s <+: st.tag
      · exact held st s ht hs
      · cases s with
        | nil => exact absurd List.nil_prefix hs
        | cons c rest => exact char st c rest ht hs (ih _ (by simp) _ _ rfl)

/-- The pass goes on with more of the text. -/
def Scan.resume (r : Scan) (more : Text) : Scan :=
  let next := scan r.state (r.held ++ more)
  ⟨r.tokens ++ next.tokens, next.state, next.held⟩

theorem resume_push (t : Token) (r : Scan) (more : Text) :
    (r.push t).resume more = (r.resume more).push t := rfl

/-- A text may come in two parts. -/
theorem scan_append (st : StripState) (s more : Text) :
    scan st (s ++ more) = (scan st s).resume more := by
  induction st, s using scan_induction with
  | tag st s ht ih =>
    rw [scan_tag (ht.trans (List.prefix_append s more)), scan_tag ht,
      List.drop_append_of_le_length ht.length_le, ih, resume_push]
  | held st s ht hs =>
    rw [scan_held ht hs]
    rfl
  | char st c rest ht hs ih =>
    have ht' : ¬ st.tag <+: c :: (rest ++ more) := fun h =>
      (List.prefix_or_prefix_of_prefix h (List.prefix_append (c :: rest) more)).elim ht hs
    have hs' : ¬ c :: (rest ++ more) <+: st.tag := fun h =>
      hs ((List.prefix_append (c :: rest) more).trans h)
    rw [List.cons_append, scan_char ht' hs', scan_char ht hs, ih, resume_push]

/-! The searches of the code along the pass. -/

/-- Some characters in front of a pass. -/
def Scan.prepend (tokens : List Token) (r : Scan) : Scan := { r with tokens := tokens ++ r.tokens }

/-- Up to the first tag all are characters. -/
theorem scan_of_split {st : StripState} {s before after : Text}
    (h : splitOnce st.tag s = some (before, after)) :
    scan st s = (scan st.other after).prepend (before.map (.char st) ++ [.mark st]) := by
  induction s generalizing before with
  | nil =>
    rw [splitOnce, if_neg st.tag_ne_nil] at h
    cases h
  | cons c s ih =>
    by_cases ht : st.tag <+: c :: s
    · rw [splitOnce, if_pos ht] at h
      obtain ⟨rfl, rfl⟩ := Prod.mk.inj (Option.some.inj h)
      rw [scan_tag ht]
      rfl
    · have hlen := congrArg List.length (splitOnce_eq_some h)
      have hs : ¬ c :: s <+: st.tag := by
        intro hs
        have heq : c :: s = st.tag := hs.eq_of_length_le (by
          rw [hlen, List.length_append, List.length_append]
          omega)
        exact ht (heq ▸ List.prefix_rfl)
      rw [splitOnce, if_neg ht] at h
      obtain ⟨⟨l, r⟩, hsplit, heq⟩ := Option.map_eq_some_iff.mp h
      obtain ⟨rfl, rfl⟩ := Prod.mk.inj heq
      rw [scan_char ht hs, ih hsplit]
      rfl

theorem pendingTagLen_le (buf tag : Text) : pendingTagLen buf tag ≤ buf.length := by
  rw [pendingTagLen]
  cases h : (List.range (min (tag.length - 1) buf.length)).reverse.find? fun k =>
      decide (buf.drop (buf.length - (k + 1)) = tag.take (k + 1)) with
  | none => exact Nat.zero_le _
  | some k =>
    have hk := List.mem_range.mp (List.mem_reverse.mp (List.mem_of_find?_eq_some h))
    simp only [Option.elim_some]
    omega

/-- All of a text that a tag begins with is held back. -/
theorem pendingTagLen_of_prefix {s tag : Text} (h : s <+: tag) (hne : ¬ tag <+: s) :
    pendingTagLen s tag = s.length := by
  cases s with
  | nil => simp [pendingTagLen]
  | cons c rest =>
    have hlt : (c :: rest).length < tag.length := by
      refine lt_of_le_of_ne h.length_le fun he => hne ?_
      rw [h.eq_of_length he]
    have hmin : min (tag.length - 1) (c :: rest).length = rest.length + 1 := by
      rw [List.length_cons] at hlt ⊢
      omega
    have htop : c :: rest = tag.take (rest.length + 1) := by
      rw [List.prefix_iff_eq_take, List.length_cons] at h
      exact h
    rw [pendingTagLen, hmin, List.range_succ, List.reverse_append, List.reverse_singleton,
      List.singleton_append, List.find?_cons_of_pos (by simpa using htop)]
    rfl

/-- A character that does not begin a tag does not count. -/
theorem pendingTagLen_cons {c : Char} {rest tag : Text} (h : ¬ c :: rest <+: tag) :
    pendingTagLen (c :: rest) tag = pendingTagLen rest tag := by
  have hdrop (k : Nat) (hk : k < rest.length) : (c :: rest).drop ((c :: rest).length - (k + 1)) =
      rest.drop (rest.length - (k + 1)) := by
    have : (c :: rest).length - (k + 1) = rest.length - (k + 1) + 1 := by
      rw [List.length_cons]
      omega
    rw [this, List.drop_succ_cons]
  have hfind (n : Nat) (hn : n ≤ rest.length) :
      ((List.range n).reverse.find? fun k =>
        (c :: rest).drop ((c :: rest).length - (k + 1)) = tag.take (k + 1)) =
      (List.range n).reverse.find? fun k =>
        rest.drop (rest.length - (k + 1)) = tag.take (k + 1) := by
    refine List.find?_congr fun k hk => ?_
    have hlt : k < n := List.mem_range.mp (List.mem_reverse.mp hk)
    rw [hdrop k (by omega)]
  rw [pendingTagLen, pendingTagLen]
  by_cases hle : tag.length - 1 ≤ rest.length
  · have hmin : min (tag.length - 1) (c :: rest).length = min (tag.length - 1) rest.length := by
      rw [List.length_cons]
      omega
    rw [hmin, hfind _ (Nat.min_le_right _ _)]
  · have hmin : min (tag.length - 1) (c :: rest).length = rest.length + 1 := by
      rw [List.length_cons]
      omega
    have hmin' : min (tag.length - 1) rest.length = rest.length := by omega
    have htop : ¬ c :: rest = tag.take (rest.length + 1) := fun he =>
      h (he ▸ List.take_prefix (rest.length + 1) tag)
    rw [hmin, hmin', List.range_succ, List.reverse_append, List.reverse_singleton,
      List.singleton_append, List.find?_cons_of_neg (by simpa using htop), hfind _ le_rfl]

/-- Without a tag all but the rest held back are characters. -/
theorem scan_of_clear {st : StripState} {s : Text} (h : splitOnce st.tag s = none) :
    scan st s = ⟨(s.take (s.length - pendingTagLen s st.tag)).map (.char st), st,
      s.drop (s.length - pendingTagLen s st.tag)⟩ := by
  induction s with
  | nil =>
    have ht : ¬ st.tag <+: [] := fun ht => st.tag_ne_nil (List.prefix_nil.mp ht)
    rw [scan_held ht List.nil_prefix, List.take_nil, List.drop_nil]
    rfl
  | cons c s ih =>
    rw [splitOnce] at h
    by_cases ht : st.tag <+: c :: s
    · rw [if_pos ht] at h
      cases h
    · rw [if_neg ht, Option.map_eq_none_iff] at h
      by_cases hs : c :: s <+: st.tag
      · rw [scan_held ht hs, pendingTagLen_of_prefix hs ht, Nat.sub_self]
        rfl
      · rw [scan_char ht hs, ih h, pendingTagLen_cons hs]
        have hle := pendingTagLen_le s st.tag
        have hsub : (c :: s).length - pendingTagLen s st.tag =
            s.length - pendingTagLen s st.tag + 1 := by
          rw [List.length_cons]
          omega
        rw [hsub, List.take_succ_cons, List.drop_succ_cons]
        rfl

/-! What the tokens say. -/

def Token.plain? : Token → Option Char
  | .char .plain c => some c
  | _ => none

def Token.thought? : Token → Option Char
  | .char .inThink c => some c
  | _ => none

/-- A character of a block, or the beginning of one. -/
def Token.block? : Token → Option (Option Char)
  | .char .inThink c => some (some c)
  | .mark .plain => some none
  | _ => none

def plainText (tokens : List Token) : Text := tokens.filterMap Token.plain?

def thoughtText (tokens : List Token) : Text := tokens.filterMap Token.thought?

/-- The thinking, cut where a block begins. -/
def blockMarks (tokens : List Token) : Marked Char := tokens.filterMap Token.block?

/-- A block ends. -/
def closes (tokens : List Token) : Bool := tokens.contains (.mark .inThink)

theorem filterMap_char {γ : Type} (f : Token → Option γ) (g : Char → γ) {st : StripState}
    (h : ∀ c, f (.char st c) = some (g c)) (s : Text) :
    (s.map (.char st)).filterMap f = s.map g := by
  induction s with
  | nil => rfl
  | cons c s ih => rw [List.map_cons, List.filterMap_cons_some (h c), ih, List.map_cons]

theorem filterMap_char_none {γ : Type} (f : Token → Option γ) {st : StripState}
    (h : ∀ c, f (.char st c) = none) (s : Text) : (s.map (.char st)).filterMap f = [] := by
  induction s with
  | nil => rfl
  | cons c s ih => rw [List.map_cons, List.filterMap_cons_none (h c), ih]

@[simp] theorem plainText_append (a b : List Token) :
    plainText (a ++ b) = plainText a ++ plainText b := List.filterMap_append

@[simp] theorem thoughtText_append (a b : List Token) :
    thoughtText (a ++ b) = thoughtText a ++ thoughtText b := List.filterMap_append

@[simp] theorem blockMarks_append (a b : List Token) :
    blockMarks (a ++ b) = blockMarks a ++ blockMarks b := List.filterMap_append

@[simp] theorem closes_append (a b : List Token) : closes (a ++ b) = (closes a || closes b) := by
  simp [closes]

@[simp] theorem plainText_plain (s : Text) : plainText (s.map (.char .plain)) = s := by
  rw [plainText, filterMap_char Token.plain? id (fun _ => rfl), List.map_id]

@[simp] theorem plainText_inThink (s : Text) : plainText (s.map (.char .inThink)) = [] :=
  filterMap_char_none _ (fun _ => rfl) s

@[simp] theorem thoughtText_plain (s : Text) : thoughtText (s.map (.char .plain)) = [] :=
  filterMap_char_none _ (fun _ => rfl) s

@[simp] theorem thoughtText_inThink (s : Text) : thoughtText (s.map (.char .inThink)) = s := by
  rw [thoughtText, filterMap_char Token.thought? id (fun _ => rfl), List.map_id]

@[simp] theorem blockMarks_plain (s : Text) : blockMarks (s.map (.char .plain)) = [] :=
  filterMap_char_none _ (fun _ => rfl) s

@[simp] theorem blockMarks_inThink (s : Text) :
    blockMarks (s.map (.char .inThink)) = s.map some :=
  filterMap_char Token.block? some (fun _ => rfl) s

@[simp] theorem closes_chars (st : StripState) (s : Text) : closes (s.map (.char st)) = false := by
  simp [closes]

@[simp] theorem plainText_nil : plainText [] = [] := rfl

@[simp] theorem thoughtText_nil : thoughtText [] = [] := rfl

@[simp] theorem blockMarks_nil : blockMarks [] = [] := rfl

@[simp] theorem closes_nil : closes [] = false := rfl

@[simp] theorem plainText_mark (st : StripState) (ts : List Token) :
    plainText (.mark st :: ts) = plainText ts := rfl

@[simp] theorem thoughtText_mark (st : StripState) (ts : List Token) :
    thoughtText (.mark st :: ts) = thoughtText ts := rfl

@[simp] theorem blockMarks_open (ts : List Token) :
    blockMarks (.mark .plain :: ts) = none :: blockMarks ts := rfl

@[simp] theorem blockMarks_close (ts : List Token) :
    blockMarks (.mark .inThink :: ts) = blockMarks ts := rfl

@[simp] theorem closes_open (ts : List Token) : closes (.mark .plain :: ts) = closes ts := rfl

@[simp] theorem closes_close (ts : List Token) : closes (.mark .inThink :: ts) = true := rfl

/-- The text of the thinking is the same, cut or not. -/
theorem reduceOption_blockMarks (tokens : List Token) :
    (blockMarks tokens).reduceOption = thoughtText tokens := by
  rw [blockMarks, List.reduceOption, List.filterMap_filterMap]
  refine List.filterMap_congr fun t _ => ?_
  cases t with
  | char st c => cases st <;> rfl
  | mark st => cases st <;> rfl

/-! The machine that is fed in chunks is the pass. -/

theorem splitOnce_after_lt {st : StripState} {s before after : Text}
    (h : splitOnce st.tag s = some (before, after)) : after.length < s.length := by
  have hlen := congrArg List.length (splitOnce_eq_some h)
  have hpos := List.length_pos_of_ne_nil st.tag_ne_nil
  rw [List.length_append, List.length_append] at hlen
  omega

/-- The machine behind the tokens of a pass. -/
def ThinkStripper.after (s : ThinkStripper) (r : Scan) : ThinkStripper :=
  ⟨r.state, r.held, s.thinking ++ thoughtText r.tokens, s.blockClosed || closes r.tokens⟩

theorem feedLoop_eq {fuel : Nat} {s : ThinkStripper} (h : s.buf.length < fuel) (out : Text) :
    feedLoop fuel s out = (s.after (scan s.state s.buf),
      out ++ plainText (scan s.state s.buf).tokens) := by
  induction fuel generalizing s out with
  | zero => omega
  | succ fuel ih =>
    obtain ⟨state, buf, thinking, closed⟩ := s
    simp only at h
    cases state with
    | plain =>
      cases hsplit : splitOnce openTag buf with
      | none =>
        simp only [feedLoop, hsplit, @scan_of_clear .plain _ hsplit, ThinkStripper.after,
          thoughtText_plain, plainText_plain, closes_chars, List.append_nil, Bool.or_false]
        rfl
      | some parts =>
        obtain ⟨before, after⟩ := parts
        have hlt := @splitOnce_after_lt .plain _ _ _ hsplit
        simp only [feedLoop, hsplit, @scan_of_split .plain _ _ _ hsplit]
        rw [ih (by simp only; omega)]
        simp [ThinkStripper.after, Scan.prepend, StripState.other]
    | inThink =>
      cases hsplit : splitOnce closeTag buf with
      | none =>
        simp only [feedLoop, hsplit, @scan_of_clear .inThink _ hsplit, ThinkStripper.after,
          thoughtText_inThink, plainText_inThink, closes_chars, List.append_nil, Bool.or_false]
        rfl
      | some parts =>
        obtain ⟨before, after⟩ := parts
        have hlt := @splitOnce_after_lt .inThink _ _ _ hsplit
        simp only [feedLoop, hsplit, @scan_of_split .inThink _ _ _ hsplit]
        rw [ih (by simp only; omega)]
        simp [ThinkStripper.after, Scan.prepend, StripState.other]

theorem feed_eq (s : ThinkStripper) (chunk : Text) :
    s.feed chunk = (s.after (scan s.state (s.buf ++ chunk)),
      plainText (scan s.state (s.buf ++ chunk)).tokens) :=
  feedLoop_eq (Nat.lt_succ_self _) []

/-! The pure function is the pass, to the end. -/

/-- The rest that was held back counts as it stands. -/
def Scan.all (r : Scan) : List Token := r.tokens ++ r.held.map (.char r.state)

theorem prepend_all (tokens : List Token) (r : Scan) : (r.prepend tokens).all = tokens ++ r.all :=
  List.append_assoc _ _ _

theorem all_of_clear {st : StripState} {s : Text} (h : splitOnce st.tag s = none) :
    (scan st s).all = s.map (.char st) := by
  rw [scan_of_clear h, Scan.all, ← List.map_append, List.take_append_drop]

/-- The reasoning that is made of cut thinking. -/
def reasoningOf (m : Marked Char) : Text := shown "\n\n".toList (gaps isWhitespace m)

theorem addSegment_eq (m : Marked Char) (seg : Text) :
    addSegment (reasoningOf m) seg = reasoningOf (m ++ none :: seg.map some) :=
  (shown_append m seg).symm

theorem stripLoop_eq {fuel : Nat} {rest : Text} (h : rest.length < fuel) (out : Text)
    (m : Marked Char) : stripLoop fuel rest out (reasoningOf m) =
      (out ++ plainText (scan .plain rest).all,
        reasoningOf (m ++ blockMarks (scan .plain rest).all)) := by
  induction fuel generalizing rest out m with
  | zero => omega
  | succ fuel ih =>
    rw [stripLoop]
    cases hopen : splitOnce openTag rest with
    | none =>
      rw [@all_of_clear .plain _ hopen, plainText_plain, blockMarks_plain, List.append_nil]
    | some parts =>
      obtain ⟨before, after⟩ := parts
      have hlt := @splitOnce_after_lt .plain _ _ _ hopen
      simp only [@scan_of_split .plain _ _ _ hopen, prepend_all, StripState.other]
      cases hclose : splitOnce closeTag after with
      | none =>
        have hnil : (scan .plain []).all = [] := @all_of_clear .plain [] rfl
        simp only [addSegment_eq]
        rw [ih (by simp only [List.length_nil]; omega), hnil,
          @all_of_clear .inThink _ hclose]
        simp
      | some parts =>
        obtain ⟨seg, next⟩ := parts
        have hlt' := @splitOnce_after_lt .inThink _ _ _ hclose
        simp only [addSegment_eq]
        rw [ih (by omega), @scan_of_split .inThink _ _ _ hclose, prepend_all]
        simp [StripState.other]

/-- The content without the thinking, and the thinking block by block. -/
theorem stripInlineThinking_eq (content : Text) :
    trim (stripInlineThinking content).1 = trim (plainText (scan .plain content).all) ∧
    (stripInlineThinking content).2 =
      (if reasoningOf (blockMarks (scan .plain content).all) = [] then none
      else some (reasoningOf (blockMarks (scan .plain content).all))) := by
  have hloop := stripLoop_eq (Nat.lt_succ_self content.length) [] []
  rw [show reasoningOf [] = [] from rfl, List.nil_append, List.nil_append] at hloop
  rw [stripInlineThinking]
  by_cases hopen : openTag <:+: content
  · rw [if_neg (not_not.mpr hopen), hloop]
    simp only
    split
    · exact ⟨rfl, rfl⟩
    · exact ⟨trim_trim _, rfl⟩
  · rw [if_pos hopen, @all_of_clear .plain _ (splitOnce_eq_none hopen), plainText_plain,
      blockMarks_plain]
    exact ⟨rfl, rfl⟩

end NemesisBot.Providers
