import NemesisBot.Agent.EditSpans

/-! The levels of the cascade: each goes through, and replaces its only candidate. -/
namespace NemesisBot.EditReplacers
open Strings Lines Offsets

theorem place_texts (off : Nat) (ls : List Line) :
    (place off ls).map FileLine.text = ls.map Line.text := by
  induction ls generalizing off with
  | nil => rfl
  | cons l ls ih => exact congrArg (l.text :: ·) (ih _)

theorem lineInfos_texts (content : Text) : (lineInfos content).map FileLine.text = lines content := by
  rw [lineInfos_eq, place_texts, lines]

/-- The spans that a level takes for the old text. -/
def Level.Candidate (content oldText : Text) (i j : Nat) : Level → Prop
  | .lineTrimmed =>
    SameLines (fun f x => trim f = x) (split content) ((lines oldText).map trim) i j
  | .blockAnchor => ∃ first mid last f l, lines oldText = first :: (mid ++ [last]) ∧
    trim first ≠ [] ∧ trim last ≠ [] ∧ i < j ∧ (split content)[i]? = some f ∧
    (split content)[j]? = some l ∧ trim f.text = trim first ∧ trim l.text = trim last ∧
    similarEnough (join ['\n'] (((lines content).take j).drop (i + 1))) (join ['\n'] mid) = true
  | .whitespaceNormalized =>
    SameLines (fun f x => normalizeWs f = x) (split content) ((lines oldText).map normalizeWs) i j
  | .indentationFlexible => ∃ k0 fWs oWs delta,
    (lines oldText).findIdx? (fun l => !isBlank l) = some k0 ∧
    deltaAt (lineInfos content) (lines oldText) k0 i = some (fWs, oWs) ∧
    deltaOfPair fWs oWs = some delta ∧
    SameLines (fun f x => shifted delta f x = some true) (split content) (lines oldText) i j
  | .trimmedBoundary => ∃ first last, (lines oldText).findIdx? (fun l => !isBlank l) = some first ∧
    rposition (fun l => !isBlank l) (lines oldText) = some last ∧
    SameLines (fun f x => f = x) (split content) (((lines oldText).take (last + 1)).drop first) i j

def textAt (ls : List Line) (i : Nat) : Text := ((ls[i]?).map Line.text).getD []

/-- The new lines with the indentation of the lines they replace. -/
def indented (ls : List Line) (i : Nat) (newLines : List Text) : List Text :=
  newLines.zipIdx.map fun l => leadingWs (textAt ls (i + l.2)) ++ trimStart l.1

def Level.rebuilt (content newText : Text) (i : Nat) : Level → List Text
  | .lineTrimmed => indented (split content) i (lines newText)
  | _ => lines newText

/-- The content with the only candidate of the level replaced. -/
structure Replaced (level : Level) (content oldText newText output : Text) (i j : Nat) (f l : Line) :
    Prop where
  first : (split content)[i]? = some f
  last : (split content)[j]? = some l
  ordered : i ≤ j
  candidate : level.Candidate content oldText i j
  within : size content (i, j) ≤ spanLimit oldText
  unique : ∀ i' j', level.Candidate content oldText i' j' →
    size content (i', j') ≤ spanLimit oldText → (i', j') = (i, j)
  count : level = .lineTrimmed → i + (lines newText).length = j + 1
  output : output = whole ((split content).take i) ++
    (spliced f l (level.rebuilt content newText i) ++ whole ((split content).drop (j + 1)))

section
variable {content oldText newText : Text}

theorem Decided.replaced {level : Level} {spans : List (Nat × Nat)}
    {outcome : Except Text LevelOutcome} {new : Nat → List Text}
    (h : Decided content oldText spans new outcome)
    (hmem : ∀ i j, (i, j) ∈ spans ↔ level.Candidate content oldText i j)
    (hnew : ∀ i, new i = level.rebuilt content newText i)
    (hcount : level = .lineTrimmed → ∀ i j, (i, j) ∈ spans → i + (lines newText).length = j + 1)
    {output : Text} (hfound : outcome = .ok (.found output)) :
    ∃ i j f l, Replaced level content oldText newText output i j f l := by
  obtain ⟨i, j, f, l, hspan, hij, hi, hj, hle, honly, hout⟩ := h.found output hfound
  rw [hnew] at hout
  exact ⟨i, j, f, l, hi, hj, hij, (hmem i j).mp hspan, hle,
    fun i' j' hcand hsize => honly (i', j') ((hmem i' j').mpr hcand) hsize,
    fun hlevel => hcount hlevel i j hspan, hout⟩

theorem lineTrimmed_replaced : ∃ outcome, lineTrimmed content oldText newText = some outcome ∧
    ∀ output, outcome = .ok (.found output) →
      ∃ i j f l, Replaced .lineTrimmed content oldText newText output i j f l := by
  rw [lineTrimmed]
  split
  · exact ⟨_, rfl, nofun⟩
  rename_i hlen
  have hlen := Decidable.not_not.mp hlen
  let q (f x : Text) : Bool := trim f = x
  have hmem (i j : Nat) : (i, j) ∈ sameSpans q (split content) ((lines oldText).map trim) ↔
      Level.lineTrimmed.Candidate content oldText i j := by
    rw [mem_sameSpans]
    simp only [q, decide_eq_true_eq]
    rfl
  have hcount {i j : Nat} (h : (i, j) ∈ sameSpans q (split content) ((lines oldText).map trim)) :
      i + (lines newText).length = j + 1 ∧ j < (split content).length := by
    have hsame := mem_sameSpans.mp h
    have hcount := hsame.count
    rw [List.length_map, ← hlen] at hcount
    exact ⟨hcount, hsame.bound⟩
  obtain ⟨outcome, hres, hdecided⟩ := @acceptBlocks_decided q content oldText
    ((lines oldText).map trim) (fun i => (lines newText).zipIdx.mapM fun l =>
      ((lineInfos content)[i + l.2]?).map fun f => leadingWs f.text ++ trimStart l.1)
    (fun i => indented (split content) i (lines newText)) .lineTrimmed fun span hspan => by
      obtain ⟨i, j⟩ := span
      obtain ⟨hij, hj⟩ := hcount hspan
      refine mapM_eq fun l hl => ?_
      have hk := (List.getElem?_eq_some_iff.mp (List.mem_zipIdx_iff_getElem?.mp hl)).1
      have hget := List.getElem?_eq_getElem (l := split content) (i := i + l.2) (by omega)
      rw [lineInfos_getElem? hget, textAt, hget]
      rfl
  refine ⟨outcome, ?_, fun output hfound => hdecided.replaced hmem (fun _ => rfl)
    (fun _ i j h => (hcount h).1) hfound⟩
  have hcands := sameCountCandidates_eq q content ((lines oldText).map trim)
  rw [List.length_map] at hcands hres
  exact (congrArg (Option.bind · _) hcands).trans hres

/-- The spans of the level that folds white space. -/
def normalizedSpans (content oldText : Text) : List (Nat × Nat) :=
  sameSpans (fun f x => normalizeWs f = x) (split content) ((lines oldText).map normalizeWs)

theorem mem_normalizedSpans {i j : Nat} : (i, j) ∈ normalizedSpans content oldText ↔
    Level.whitespaceNormalized.Candidate content oldText i j := by
  rw [normalizedSpans, mem_sameSpans]
  simp only [decide_eq_true_eq]
  rfl

theorem whitespaceNormalized_decided :
    ∃ outcome, whitespaceNormalized content oldText newText = some outcome ∧
      Decided content oldText (normalizedSpans content oldText) (fun _ => lines newText) outcome := by
  let q (f x : Text) : Bool := normalizeWs f = x
  obtain ⟨outcome, hres, hdecided⟩ := @acceptBlocks_decided q content oldText
    ((lines oldText).map normalizeWs) (fun _ => some (lines newText)) (fun _ => lines newText)
    .whitespaceNormalized fun _ _ => rfl
  refine ⟨outcome, ?_, hdecided⟩
  have hcands := sameCountCandidates_eq q content ((lines oldText).map normalizeWs)
  rw [List.length_map] at hcands hres
  exact (congrArg (Option.bind · _) hcands).trans hres

theorem whitespaceNormalized_replaced :
    ∃ outcome, whitespaceNormalized content oldText newText = some outcome ∧
    ∀ output, outcome = .ok (.found output) →
      ∃ i j f l, Replaced .whitespaceNormalized content oldText newText output i j f l := by
  obtain ⟨outcome, hres, hdecided⟩ := @whitespaceNormalized_decided content oldText newText
  exact ⟨outcome, hres, fun output hfound =>
    hdecided.replaced (fun _ _ => mem_normalizedSpans) (fun _ => rfl) nofun hfound⟩

theorem rposition_spec {α : Type} {p : α → Bool} {s : List α} {k : Nat}
    (h : rposition p s = some k) : ∃ a, s[k]? = some a ∧ p a = true := by
  obtain ⟨i, hi, rfl⟩ := Option.map_eq_some_iff.mp h
  obtain ⟨hlt, hp, -⟩ := List.findIdx?_eq_some_iff_getElem.mp hi
  rw [List.length_reverse] at hlt
  rw [List.getElem_reverse] at hp
  exact ⟨_, List.getElem?_eq_getElem (by omega), hp⟩

theorem trimmedBoundary_replaced : ∃ outcome, trimmedBoundary content oldText newText = some outcome ∧
    ∀ output, outcome = .ok (.found output) →
      ∃ i j f l, Replaced .trimmedBoundary content oldText newText output i j f l := by
  rw [trimmedBoundary]
  cases hfirst : (lines oldText).findIdx? fun l => !isBlank l with
  | none => exact ⟨_, rfl, nofun⟩
  | some first =>
    cases hlast : rposition (fun l => !isBlank l) (lines oldText) with
    | none => exact ⟨_, rfl, nofun⟩
    | some last =>
      have hcore : slice (lines oldText) first (last + 1) =
          some (((lines oldText).take (last + 1)).drop first) := by
        obtain ⟨l, hl, hp⟩ := rposition_spec hlast
        obtain ⟨_, _, hbefore⟩ := List.findIdx?_eq_some_iff_getElem.mp hfirst
        obtain ⟨hlt, he⟩ := List.getElem?_eq_some_iff.mp hl
        refine if_pos ⟨?_, hlt⟩
        by_contra hle
        rw [← he] at hp
        exact hbefore last (by omega) hp
      let core := ((lines oldText).take (last + 1)).drop first
      let q (f x : Text) : Bool := f = x
      have hmem (i j : Nat) : (i, j) ∈ sameSpans q (split content) core ↔
          Level.trimmedBoundary.Candidate content oldText i j := by
        rw [mem_sameSpans]
        simp only [q, decide_eq_true_eq]
        constructor
        · exact fun h => ⟨first, last, hfirst, hlast, h⟩
        · rintro ⟨first', last', hfirst', hlast', h⟩
          obtain rfl := Option.some.inj (hfirst.symm.trans hfirst')
          obtain rfl := Option.some.inj (hlast.symm.trans hlast')
          exact h
      obtain ⟨outcome, hres, hdecided⟩ := @acceptBlocks_decided q content oldText core
        (fun _ => some (lines newText)) (fun _ => lines newText) .trimmedBoundary fun _ _ => rfl
      refine ⟨outcome, ?_, fun output hfound => hdecided.replaced hmem (fun _ => rfl) nofun hfound⟩
      simp only [hcore, Option.bind_eq_bind, Option.bind_some]
      exact (congrArg (Option.bind · _) (sameCountCandidates_eq q content core)).trans hres

/-- The spans between two anchors with a middle that is similar enough. -/
def anchorSpans (ls : List Line) (firstAnchor lastAnchor oldMid : Text) : List (Nat × Nat) :=
  (List.range ls.length).flatMap fun i =>
    if trim (textAt ls i) ≠ firstAnchor then []
    else (List.range' (i + 1) (ls.length - (i + 1))).flatMap fun j =>
      if trim (textAt ls j) = lastAnchor then
        if similarEnough (join ['\n'] (((ls.map Line.text).take j).drop (i + 1))) oldMid then [(i, j)]
        else []
      else []

theorem textAt_eq {ls : List Line} {i : Nat} {l : Line} (h : ls[i]? = some l) :
    textAt ls i = l.text := by
  rw [textAt, h]
  rfl

theorem anchoredPairs_eq (content firstAnchor lastAnchor oldMid : Text) :
    anchoredPairs (lineInfos content) firstAnchor lastAnchor oldMid =
      some (anchorSpans (split content) firstAnchor lastAnchor oldMid) := by
  rw [anchoredPairs, anchorSpans, lineInfos_length]
  refine gather_eq fun i hi => ?_
  have hi := List.getElem?_eq_getElem (List.mem_range.mp hi)
  rw [lineInfos_getElem? hi, textAt_eq hi]
  simp only [Option.bind_eq_bind, Option.bind_some]
  split
  · rfl
  refine gather_eq fun j hj => ?_
  obtain ⟨hij, hj⟩ := List.mem_range'_1.mp hj
  have hlt : j < (split content).length := by omega
  have hget := List.getElem?_eq_getElem hlt
  have hmid : slice (lineInfos content) (i + 1) j =
      some (((lineInfos content).take j).drop (i + 1)) :=
    if_pos ⟨hij, by rw [lineInfos_length]; omega⟩
  rw [lineInfos_getElem? hget, textAt_eq hget]
  simp only [Option.bind_some]
  split
  · rw [hmid, Option.bind_some, List.map_drop, List.map_take, lineInfos_texts, lines]
    split <;> rfl
  · rfl

theorem mem_anchorSpans {ls : List Line} {firstAnchor lastAnchor oldMid : Text} {i j : Nat} :
    (i, j) ∈ anchorSpans ls firstAnchor lastAnchor oldMid ↔ i < j ∧ ∃ f l, ls[i]? = some f ∧
      ls[j]? = some l ∧ trim f.text = firstAnchor ∧ trim l.text = lastAnchor ∧
      similarEnough (join ['\n'] (((ls.map Line.text).take j).drop (i + 1))) oldMid = true := by
  rw [anchorSpans, List.mem_flatMap]
  constructor
  · rintro ⟨a, ha, hmem⟩
    have ha := List.getElem?_eq_getElem (List.mem_range.mp ha)
    split at hmem
    · cases hmem
    rename_i hfirst
    obtain ⟨b, hb, hmem⟩ := List.mem_flatMap.mp hmem
    obtain ⟨hab, hb⟩ := List.mem_range'_1.mp hb
    have hlt : b < ls.length := by omega
    have hget := List.getElem?_eq_getElem hlt
    split at hmem
    · rename_i hlast
      split at hmem
      · rename_i hsimilar
        obtain ⟨rfl, rfl⟩ := Prod.mk.inj (List.mem_singleton.mp hmem)
        rw [textAt_eq ha, not_ne_iff] at hfirst
        rw [textAt_eq hget] at hlast
        exact ⟨hab, _, _, ha, hget, hfirst, hlast, hsimilar⟩
      · cases hmem
    · cases hmem
  · rintro ⟨hij, f, l, hi, hj, hfirst, hlast, hsimilar⟩
    have hjlt := (List.getElem?_eq_some_iff.mp hj).1
    refine ⟨i, List.mem_range.mpr (by omega), ?_⟩
    rw [textAt_eq hi, if_neg (not_ne_iff.mpr hfirst), List.mem_flatMap]
    refine ⟨j, List.mem_range'_1.mpr ⟨hij, by omega⟩, ?_⟩
    rw [textAt_eq hj, if_pos hlast, if_pos hsimilar]
    exact List.mem_singleton_self _

/-- A list of two elements or more. -/
theorem ends_of_length {α : Type} {s : List α} (h : 2 ≤ s.length) :
    ∃ first mid last, s = first :: (mid ++ [last]) := by
  cases s with
  | nil => exact absurd h (Nat.not_le_of_lt Nat.two_pos)
  | cons first rest =>
    have hne : rest ≠ [] := List.ne_nil_of_length_pos (Nat.le_of_succ_le_succ h)
    exact ⟨first, rest.dropLast, rest.getLast hne, by rw [List.dropLast_append_getLast]⟩

theorem blockAnchor_replaced : ∃ outcome, blockAnchor content oldText newText = some outcome ∧
    ∀ output, outcome = .ok (.found output) →
      ∃ i j f l, Replaced .blockAnchor content oldText newText output i j f l := by
  rw [blockAnchor]
  split
  · exact ⟨_, rfl, nofun⟩
  rename_i hlen
  obtain ⟨first, mid, last, hold⟩ := ends_of_length (Nat.le_of_not_lt hlen)
  have hlength : (lines oldText).length - 1 = mid.length + 1 := by
    rw [hold, List.length_cons, List.length_append]
    rfl
  have hfirst : ((lines oldText)[0]?).map trim = some (trim first) := by
    rw [hold]
    rfl
  have hlast : ((lines oldText)[(lines oldText).length - 1]?).map trim = some (trim last) := by
    rw [hlength, hold, List.getElem?_cons_succ, List.getElem?_concat_length]
    rfl
  have hmid : slice (lines oldText) 1 ((lines oldText).length - 1) = some mid := by
    rw [slice, if_pos (by omega), hlength, hold, List.take_succ_cons, List.drop_succ_cons,
      List.drop_zero, List.take_left]
  simp only [hfirst, hlast, hmid, Option.bind_eq_bind, Option.bind_some]
  split
  · exact ⟨_, rfl, nofun⟩
  rename_i hanchors
  rw [not_or] at hanchors
  let spans := anchorSpans (split content) (trim first) (trim last) (join ['\n'] mid)
  have hbound : ∀ span ∈ spans, span.1 ≤ span.2 ∧ span.2 < (split content).length := by
    rintro ⟨i, j⟩ hspan
    obtain ⟨hij, f, l, -, hj, -⟩ := mem_anchorSpans.mp hspan
    exact ⟨Nat.le_of_lt hij, (List.getElem?_eq_some_iff.mp hj).1⟩
  have hspanned : spans.mapM (fun c => (spanBytes (lineInfos content) c.1 c.2).map
      fun bytes => (c.1, bytes)) = some (spans.map fun span => (span.1, size content span)) := by
    refine mapM_eq fun span hspan => ?_
    rw [spanBytes_eq (hbound span hspan).1 (hbound span hspan).2]
    rfl
  have hmem (i j : Nat) : (i, j) ∈ spans ↔ Level.blockAnchor.Candidate content oldText i j := by
    rw [mem_anchorSpans]
    constructor
    · rintro ⟨hij, f, l, hi, hj, hf, hl, hsimilar⟩
      exact ⟨first, mid, last, f, l, hold, hanchors.1, hanchors.2, hij, hi, hj, hf, hl, hsimilar⟩
    · rintro ⟨first', mid', last', f, l, hold', -, -, hij, hi, hj, hf, hl, hsimilar⟩
      obtain ⟨rfl, hrest⟩ := List.cons.inj (hold.symm.trans hold')
      obtain ⟨rfl, hend⟩ := List.append_inj' hrest rfl
      obtain rfl := List.singleton_inj.mp hend
      exact ⟨hij, f, l, hi, hj, hf, hl, hsimilar⟩
  obtain ⟨outcome, hres, hdecided⟩ := @acceptUniqueSpans_decided content oldText spans _
    (fun _ => some (lines newText)) (fun _ => lines newText) .blockAnchor hbound rfl fun _ _ => rfl
  refine ⟨outcome, ?_, fun output hfound => hdecided.replaced hmem (fun _ => rfl) nofun hfound⟩
  rw [anchoredPairs_eq, Option.bind_some, hspanned]
  exact hres

/-! The level that shifts the indentation takes no span that folding white space does not take. -/

theorem leadingWs_append (s : Text) : leadingWs s ++ trimStart s = s :=
  List.takeWhile_append_dropWhile

theorem sliceFrom_leadingWs (s : Text) : sliceFrom (byteLen (leadingWs s)) s = some (trimStart s) :=
  sliceFrom_eq_some_iff.mpr ⟨leadingWs s, (leadingWs_append s).symm, rfl⟩

theorem sliceFrom_prefix {p s : Text} (h : p <+: s) : ∃ rest, sliceFrom (byteLen p) s = some rest := by
  obtain ⟨rest, hs⟩ := h
  exact ⟨rest, sliceFrom_eq_some_iff.mpr ⟨p, hs.symm, rfl⟩⟩

theorem normalizeFrom_true (s : Text) : trim (normalizeFrom true s) = normalizeWs (trimStart s) := by
  induction s with
  | nil => rfl
  | cons c s ih =>
    rw [normalizeFrom, trimStart]
    cases hc : isWhitespace c with
    | true => rw [if_pos rfl, if_pos rfl, List.dropWhile_cons_of_pos hc, ih, trimStart]
    | false =>
      rw [if_neg Bool.false_ne_true, List.dropWhile_cons_of_neg (by rw [hc]; exact Bool.false_ne_true),
        normalizeWs, normalizeFrom, hc, if_neg Bool.false_ne_true]

theorem normalizeWs_trimStart (s : Text) : normalizeWs (trimStart s) = normalizeWs s := by
  cases s with
  | nil => rfl
  | cons c s =>
    cases hc : isWhitespace c with
    | true =>
      have hcons : normalizeFrom false (c :: s) = ' ' :: normalizeFrom true s := by
        rw [normalizeFrom, hc]
        rfl
      have htrim : normalizeWs (c :: s) = trim (normalizeFrom true s) := by
        rw [normalizeWs, hcons]
        rfl
      rw [htrim, normalizeFrom_true, trimStart, List.dropWhile_cons_of_pos hc, trimStart]
    | false => rw [trimStart_of_head hc]

theorem deltaOfPair_some {fWs oWs : Text} (h : oWs <+: fWs ∨ fWs <+: oWs) :
    ∃ delta, deltaOfPair fWs oWs = some delta := by
  rw [deltaOfPair]
  split
  · rename_i hadd
    obtain ⟨rest, hrest⟩ := sliceFrom_prefix hadd.2
    exact ⟨_, by rw [hrest]; rfl⟩
  · rename_i hno
    have hstrip : fWs <+: oWs := h.resolve_left fun hadd => hno ⟨?_, hadd⟩
    · obtain ⟨rest, hrest⟩ := sliceFrom_prefix hstrip
      exact ⟨_, by rw [hrest]; rfl⟩
    · obtain ⟨rest, hrest⟩ := hadd
      rw [← hrest, byteLen_append]
      exact Nat.le_add_right _ _

theorem shifted_spec (delta : IndentDelta) (text oldLine : Text) :
    ∃ b, shifted delta text oldLine = some b ∧
      (b = true → normalizeWs text = normalizeWs oldLine) := by
  have hblank {s : Text} (h : isBlank s = true) : normalizeWs s = [] := by
    rw [← normalizeWs_trimStart, trimStart_eq_nil (of_decide_eq_true h)]
    rfl
  rw [shifted]
  cases ho : isBlank oldLine with
  | true =>
    cases ht : isBlank text with
    | true => exact ⟨true, rfl, fun _ => (hblank ht).trans (hblank ho).symm⟩
    | false => exact ⟨false, rfl, nofun⟩
  | false =>
    cases ht : isBlank text with
    | true => exact ⟨false, rfl, nofun⟩
    | false =>
      simp only [sliceFrom_leadingWs, Option.bind_eq_bind, Option.bind_some]
      split
      · refine ⟨_, rfl, fun he => ?_⟩
        rw [← normalizeWs_trimStart text, of_decide_eq_true he, normalizeWs_trimStart]
      · exact ⟨false, rfl, nofun⟩

theorem shiftLine_some (delta : IndentDelta) (l : Text) : ∃ l', shiftLine delta l = some l' := by
  cases hl : isBlank l with
  | true => exact ⟨l, by rw [shiftLine.eq_def, hl, if_pos rfl]⟩
  | false =>
    rw [shiftLine.eq_def, hl, if_neg Bool.false_ne_true]
    cases delta with
    | add extra => exact ⟨_, rfl⟩
    | strip miss =>
      simp only
      split
      · rename_i hmiss
        exact sliceFrom_prefix (hmiss.2.trans (List.takeWhile_prefix isWhitespace))
      · exact ⟨_, rfl⟩

theorem deltaAt_eq {k0 i : Nat} {l : Line} {o : Text} (hl : (split content)[i + k0]? = some l)
    (ho : (lines oldText)[k0]? = some o) :
    deltaAt (lineInfos content) (lines oldText) k0 i = some (leadingWs l.text, leadingWs o) := by
  rw [deltaAt, lineInfos_getElem? hl, ho]
  rfl

/-- The candidates are spans of the level that folds white space, with a shift each. -/
theorem shiftedCandidates_spec {k0 : Nat} (hk : k0 < (lines oldText).length) :
    ∃ cands, shiftedCandidates (lineInfos content) (lines oldText) k0 = some cands ∧
      ∀ c ∈ cands, ∃ i fWs oWs delta, (i, i + (lines oldText).length - 1) ∈
        normalizedSpans content oldText ∧
        c = (i, size content (i, i + (lines oldText).length - 1)) ∧
        deltaAt (lineInfos content) (lines oldText) k0 i = some (fWs, oWs) ∧
        deltaOfPair fWs oWs = some delta := by
  rw [shiftedCandidates, lineInfos_length]
  split
  · exact ⟨[], rfl, nofun⟩
  rename_i hlen
  have ho := List.getElem?_eq_getElem hk
  refine gather_forall fun i hi => ?_
  have hi := List.mem_range.mp hi
  have hl := List.getElem?_eq_getElem (l := split content) (i := i + k0) (by omega)
  have hdelta := deltaAt_eq hl ho
  rw [hdelta]
  simp only [Option.bind_eq_bind, Option.bind_some]
  split
  · rename_i hprefix
    obtain ⟨delta, hpair⟩ := deltaOfPair_some hprefix
    obtain ⟨ok, hok, hall⟩ := @allM_forall (Text × Nat) (fun ol => do
        let f ← (lineInfos content)[i + ol.2]?
        shifted delta f.text ol.1)
      (fun ol => ∀ l, (split content)[i + ol.2]? = some l → normalizeWs l.text = normalizeWs ol.1)
      (lines oldText).zipIdx fun ol hol => by
        have hget := (List.getElem?_eq_some_iff.mp (List.mem_zipIdx_iff_getElem?.mp hol)).1
        have hl' := List.getElem?_eq_getElem (l := split content) (i := i + ol.2) (by omega)
        obtain ⟨b, hb, hsame⟩ := shifted_spec delta (split content)[i + ol.2].text ol.1
        refine ⟨b, ?_, fun htrue l hl => ?_⟩
        · rw [lineInfos_getElem? hl']
          exact hb
        · rw [← Option.some.inj (hl'.symm.trans hl)]
          exact hsame htrue
    rw [hpair, Option.bind_some]
    simp only [Option.bind_eq_bind] at hok
    rw [hok, Option.bind_some]
    cases ok with
    | false => exact ⟨[], rfl, nofun⟩
    | true =>
      rw [if_pos rfl, spanBytes_eq (by omega) (by omega)]
      refine ⟨_, rfl, fun c hc => ?_⟩
      rw [List.mem_singleton.mp hc]
      refine ⟨i, _, _, delta, mem_normalizedSpans.mpr ⟨?_, ?_, by omega, fun k l x hl hx => ?_⟩,
        rfl, hdelta, hpair⟩
      · rw [Ne, List.map_eq_nil_iff]
        exact List.ne_nil_of_length_pos (Nat.zero_lt_of_lt hk)
      · rw [List.length_map]
        omega
      · rw [List.getElem?_map] at hx
        obtain ⟨o, ho, rfl⟩ := Option.map_eq_some_iff.mp hx
        exact hall rfl (o, k) (List.mem_zipIdx_iff_getElem?.mpr ho) l hl
  · exact ⟨[], rfl, nofun⟩

/-- Where no span of the level that folds white space is in the limit, nothing is replaced. -/
theorem indentationFlexible_missed :
    ∃ outcome, indentationFlexible content oldText newText = some outcome ∧
      ((∀ span ∈ normalizedSpans content oldText, spanLimit oldText < size content span) →
        ∀ output, outcome ≠ .ok (.found output)) := by
  rw [indentationFlexible]
  cases hfirst : (lines oldText).findIdx? fun l => !isBlank l with
  | none =>
    refine ⟨_, rfl, fun _ _ h => ?_⟩
    cases h
  | some k0 =>
    have hk := (List.findIdx?_eq_some_iff_getElem.mp hfirst).1
    obtain ⟨cands, hcands, hall⟩ := @shiftedCandidates_spec content oldText k0 hk
    let rebuild (i : Nat) : Option (List Text) := do
      let ws ← deltaAt (lineInfos content) (lines oldText) k0 i
      let delta ← deltaOfPair ws.1 ws.2
      (lines newText).mapM (shiftLine delta)
    let spans := cands.map fun c => (c.1, c.1 + (lines oldText).length - 1)
    have hspans : ∀ span ∈ spans, span ∈ normalizedSpans content oldText ∧
        rebuild span.1 = some ((rebuild span.1).getD []) := by
      intro span hspan
      obtain ⟨c, hc, rfl⟩ := List.mem_map.mp hspan
      obtain ⟨i, fWs, oWs, delta, hmem, rfl, hdelta, hpair⟩ := hall c hc
      refine ⟨hmem, ?_⟩
      have hrebuild : rebuild i = (lines newText).mapM (shiftLine delta) := by
        simp only [rebuild, hdelta, hpair, Option.bind_eq_bind, Option.bind_some]
      have hmap : (lines newText).mapM (shiftLine delta) =
          some ((lines newText).map fun l => (shiftLine delta l).getD []) := by
        refine mapM_eq fun l _ => ?_
        obtain ⟨l', hl'⟩ := shiftLine_some delta l
        rw [hl']
        rfl
      rw [hrebuild, hmap]
      rfl
    have hsizes : cands = spans.map fun span => (span.1, size content span) := by
      rw [List.map_map]
      refine ((List.map_congr_left fun c hc => ?_).trans (List.map_id cands)).symm
      obtain ⟨i, fWs, oWs, delta, -, rfl, -⟩ := hall c hc
      rfl
    obtain ⟨outcome, hres, hdecided⟩ := @acceptUniqueSpans_decided content oldText spans cands
      rebuild (fun i => (rebuild i).getD []) .indentationFlexible
      (fun span hspan => sameSpans_bound span (hspans span hspan).1) hsizes
      fun span hspan => (hspans span hspan).2
    refine ⟨outcome, ?_, fun hlarge output hfound => ?_⟩
    · simp only [hcands, Option.bind_eq_bind, Option.bind_some]
      exact hres
    · obtain ⟨i, j, f, l, hspan, -, -, -, hle, -⟩ := hdecided.found output hfound
      have hlt := hlarge _ (hspans _ hspan).1
      omega

end

end NemesisBot.EditReplacers
