import NemesisBot.Agent.EditReplacers

/-! What a level of the cascade finds, and what it replaces. -/
namespace NemesisBot.EditReplacers
open Strings Lines Offsets

/-! Loops that stay in bounds. -/

theorem gather_eq {α β : Type} {f : α → Option (List β)} {g : α → List β} {as : List α}
    (h : ∀ a ∈ as, f a = some (g a)) : gather f as = some (as.flatMap g) := by
  induction as with
  | nil => rfl
  | cons a as ih =>
    obtain ⟨ha, has⟩ := List.forall_mem_cons.mp h
    rw [gather, ha, ih has]
    rfl

theorem allM_eq {α : Type} {f : α → Option Bool} {g : α → Bool} {as : List α}
    (h : ∀ a ∈ as, f a = some (g a)) : as.allM f = some (as.all g) := by
  induction as with
  | nil => rfl
  | cons a as ih =>
    obtain ⟨ha, has⟩ := List.forall_mem_cons.mp h
    rw [List.allM, ha, List.all_cons]
    cases g a with
    | false => rfl
    | true => exact ih has

theorem gather_forall {α β : Type} {f : α → Option (List β)} {P : β → Prop} {as : List α}
    (h : ∀ a ∈ as, ∃ found, f a = some found ∧ ∀ b ∈ found, P b) :
    ∃ found, gather f as = some found ∧ ∀ b ∈ found, P b := by
  induction as with
  | nil => exact ⟨[], rfl, nofun⟩
  | cons a as ih =>
    obtain ⟨⟨found, ha, hfound⟩, has⟩ := List.forall_mem_cons.mp h
    obtain ⟨more, hmore, hall⟩ := ih has
    refine ⟨found ++ more, ?_, fun b hb => (List.mem_append.mp hb).elim (hfound b) (hall b)⟩
    rw [gather, ha, hmore]
    rfl

theorem allM_forall {α : Type} {f : α → Option Bool} {P : α → Prop} {as : List α}
    (h : ∀ a ∈ as, ∃ b, f a = some b ∧ (b = true → P a)) :
    ∃ b, as.allM f = some b ∧ (b = true → ∀ a ∈ as, P a) := by
  induction as with
  | nil => exact ⟨true, rfl, nofun⟩
  | cons a as ih =>
    obtain ⟨⟨b, ha, hb⟩, has⟩ := List.forall_mem_cons.mp h
    rw [List.allM, ha]
    cases b with
    | false => exact ⟨false, rfl, nofun⟩
    | true =>
      obtain ⟨b, hall, hmore⟩ := ih has
      exact ⟨b, hall, fun htrue => List.forall_mem_cons.mpr ⟨hb rfl, hmore htrue⟩⟩

theorem mapM_eq {α β : Type} {f : α → Option β} {g : α → β} {as : List α}
    (h : ∀ a ∈ as, f a = some (g a)) : as.mapM f = some (as.map g) := by
  induction as with
  | nil => rfl
  | cons a as ih =>
    obtain ⟨ha, has⟩ := List.forall_mem_cons.mp h
    rw [List.mapM_cons, ha, ih has]
    rfl

/-! Lines and their places. -/

def whole (ls : List Line) : Text := ls.flatMap Line.whole

def place : Nat → List Line → List FileLine
  | _, [] => []
  | off, l :: ls =>
    ⟨off, off + byteLen l.whole, l.term, l.text⟩ :: place (off + byteLen l.whole) ls

/-- The lines from the `i`-th to the `j`-th. -/
def block (ls : List Line) (i j : Nat) : List Line := (ls.take (j + 1)).drop i

theorem whole_append (ls ls' : List Line) : whole (ls ++ ls') = whole ls ++ whole ls' :=
  List.flatMap_append

theorem lineInfosFrom_eq (start : Nat) (passed s : Text) :
    lineInfosFrom start passed s = place start (splitFrom passed s) := by
  induction s generalizing start passed with
  | nil =>
    rw [lineInfosFrom, splitFrom]
    split
    · rfl
    · rw [place, place, Line.whole, List.append_nil]
  | cons c s ih =>
    rw [lineInfosFrom, splitFrom]
    split
    · have hlen : byteLen (ended passed).whole = byteLen passed + 1 := by
        rw [ended_whole, byteLen_append]
        rfl
      change _ :: lineInfosFrom (start + byteLen passed + 1) [] s = _
      rw [ih, place, hlen, ended, ← Nat.add_assoc]
      cases stripSuffix ['\r'] passed <;> rfl
    · exact ih start _

theorem lineInfos_eq (content : Text) : lineInfos content = place 0 (split content) :=
  lineInfosFrom_eq 0 [] content

theorem place_length (off : Nat) (ls : List Line) : (place off ls).length = ls.length := by
  induction ls generalizing off with
  | nil => rfl
  | cons l ls ih => rw [place, List.length_cons, List.length_cons, ih]

theorem place_getElem? (off : Nat) (ls : List Line) (i : Nat) :
    (place off ls)[i]? = (ls[i]?).map fun l => ⟨off + byteLen (whole (ls.take i)),
      off + byteLen (whole (ls.take i)) + byteLen l.whole, l.term, l.text⟩ := by
  induction ls generalizing off i with
  | nil => rfl
  | cons l ls ih =>
    cases i with
    | zero => rfl
    | succ i =>
      have hlen : byteLen (whole ((l :: ls).take (i + 1))) =
          byteLen l.whole + byteLen (whole (ls.take i)) := byteLen_append _ _
      rw [place, List.getElem?_cons_succ, List.getElem?_cons_succ, ih, hlen]
      simp only [Nat.add_assoc]

section
variable {content : Text} {i j : Nat} {l f : Line}

theorem lineInfos_getElem? (h : (split content)[i]? = some l) : (lineInfos content)[i]? =
    some ⟨byteLen (whole ((split content).take i)),
      byteLen (whole ((split content).take (i + 1))), l.term, l.text⟩ := by
  rw [lineInfos_eq, place_getElem?, h, List.take_add_one, h, whole_append, byteLen_append,
    Nat.zero_add]
  simp only [Option.map_some, Option.toList_some, whole, List.flatMap_singleton]

theorem lineInfos_length (content : Text) : (lineInfos content).length = (split content).length := by
  rw [lineInfos_eq, place_length]

/-- The lines before a span, those of the span, and those behind it make up the content. -/
theorem content_split (hij : i ≤ j + 1) : content = whole ((split content).take i) ++
    (whole (block (split content) i j) ++ whole ((split content).drop (j + 1))) := by
  have hblock : (split content).take i ++ block (split content) i j =
      (split content).take (j + 1) := by
    rw [block, List.drop_take, ← List.take_add, Nat.add_sub_cancel' hij]
  rw [← whole_append, ← whole_append, ← List.append_assoc, hblock, List.take_append_drop]
  exact (split_whole content).symm

/-- What the splice puts in place of a span. -/
def spliced (f l : Line) (newLines : List Text) : Text :=
  join f.term newLines ++ if newLines = [] then [] else l.term

theorem spliceSpan_eq (hij : i ≤ j) (hi : (split content)[i]? = some f)
    (hj : (split content)[j]? = some l) (newLines : List Text) :
    spliceSpan content (lineInfos content) i j newLines = some (whole ((split content).take i) ++
      (spliced f l newLines ++ whole ((split content).drop (j + 1)))) := by
  have hsplit := @content_split content i j (by omega)
  have hend := @content_split content (j + 1) j (Nat.le_refl _)
  have hnil : block (split content) (j + 1) j = [] := by
    rw [block, List.drop_eq_nil_iff, List.length_take]
    exact Nat.min_le_left _ _
  rw [hnil] at hend
  change content = whole _ ++ whole _ at hend
  have hcut {u v : Text} (h : content = u ++ v) :
      cutAt Char.utf8Size (byteLen u) content = some (u, v) :=
    (cutAt_eq_some_iff Char.utf8Size_pos).mpr ⟨h, rfl⟩
  have hterm : (if newLines ≠ [] ∧ l.term ≠ [] then join f.term newLines ++ l.term
      else join f.term newLines) = spliced f l newLines := by
    rw [spliced]
    by_cases hnew : newLines = []
    · rw [if_pos hnew, if_neg fun h => h.1 hnew, List.append_nil]
    · rw [if_neg hnew]
      by_cases hl : l.term = []
      · rw [if_neg fun h => h.2 hl, hl, List.append_nil]
      · rw [if_pos ⟨hnew, hl⟩]
  rw [spliceSpan, lineInfos_getElem? hi, lineInfos_getElem? hj]
  simp only [Option.bind_eq_bind, Option.bind_some, hterm, hcut hsplit, hcut hend, List.append_assoc]

theorem spanBytes_eq (hij : i ≤ j) (hj : j < (split content).length) :
    spanBytes (lineInfos content) i j = some (byteLen (whole (block (split content) i j))) := by
  have hi := List.getElem?_eq_getElem (Nat.lt_of_le_of_lt hij hj)
  have hblock : (split content).take (j + 1) = (split content).take i ++ block (split content) i j := by
    rw [block, List.drop_take, ← List.take_add, Nat.add_sub_cancel' (by omega)]
  rw [spanBytes, lineInfos_getElem? hi, lineInfos_getElem? (List.getElem?_eq_getElem hj)]
  simp only [Option.bind_eq_bind, Option.bind_some, hblock, whole_append, byteLen_append,
    Nat.add_sub_cancel_left]

end

/-! Candidates. -/

/-- The size of a span that is a candidate must not be above the limit. -/
def size (content : Text) (span : Nat × Nat) : Nat :=
  byteLen (whole (block (split content) span.1 span.2))

theorem mem_within {limit p : Nat} {cands : List (Nat × Nat)} :
    p ∈ cands.zipIdx.filterMap (fun c => if limit < c.1.2 then none else some c.2) ↔
      ∃ c, cands[p]? = some c ∧ c.2 ≤ limit := by
  rw [List.mem_filterMap]
  constructor
  · rintro ⟨⟨c, k⟩, hmem, hsome⟩
    split at hsome
    · cases hsome
    · rename_i hle
      obtain rfl := Option.some.inj hsome
      exact ⟨c, List.mem_zipIdx_iff_getElem?.mp hmem, Nat.le_of_not_lt hle⟩
  · rintro ⟨c, hget, hle⟩
    exact ⟨(c, p), List.mem_zipIdx_iff_getElem?.mpr hget, if_neg (Nat.not_lt_of_le hle)⟩

/-- No candidate in the limit, or exactly one, or an error. -/
theorem acceptUniqueSpans_cases (level : Level) (cands : List (Nat × Nat)) (oldText : Text)
    (build : Nat → LevelResult) :
    ((∀ c ∈ cands, spanLimit oldText < c.2) ∧
      ∃ outcome, acceptUniqueSpans level cands oldText build = some (.ok outcome) ∧
        ∀ content, outcome ≠ .found content) ∨
    (∃ p c, cands[p]? = some c ∧ c.2 ≤ spanLimit oldText ∧
      (∀ p' c', cands[p']? = some c' → c'.2 ≤ spanLimit oldText → p' = p) ∧
      acceptUniqueSpans level cands oldText build = build p) ∨
    ∃ msg, acceptUniqueSpans level cands oldText build = some (.error msg) := by
  have hwithin {p : Nat} := @mem_within (spanLimit oldText) p cands
  simp only [acceptUniqueSpans]
  cases hw : cands.zipIdx.filterMap (fun c => if spanLimit oldText < c.1.2 then none else some c.2) with
  | nil =>
    rw [hw] at hwithin
    refine Or.inl ⟨fun c hc => ?_, _, rfl, fun content => ?_⟩
    · obtain ⟨p, hp⟩ := List.mem_iff_getElem?.mp hc
      by_contra hle
      exact List.not_mem_nil (hwithin.mpr ⟨c, hp, Nat.le_of_not_lt hle⟩)
    · split <;>
        · intro h
          cases h
  | cons p more =>
    rw [hw] at hwithin
    cases more with
    | nil =>
      obtain ⟨c, hget, hle⟩ := hwithin.mp (List.mem_singleton_self p)
      exact Or.inr (Or.inl ⟨p, c, hget, hle,
        fun p' c' hget' hle' => List.mem_singleton.mp (hwithin.mpr ⟨c', hget', hle'⟩), rfl⟩)
    | cons p' more =>
      have hstarts : (p :: p' :: more).mapM (fun p => (cands[p]?).map fun c => c.1 + 1) =
          some ((p :: p' :: more).map fun p => ((cands[p]?).map fun c => c.1 + 1).getD 0) := by
        refine mapM_eq fun a ha => ?_
        obtain ⟨c, hget, -⟩ := hwithin.mp ha
        rw [hget]
        rfl
      exact Or.inr (Or.inr ⟨_, congrArg (fun found : Option (List Nat) =>
        found.bind fun starts => some (Except.error (ambiguous level starts))) hstarts⟩)

/-- The outcome of a level whose candidates are the spans: a replaced span is the only one of them
in the limit, and if no span is replaced without an error, none is in the limit. -/
structure Decided (content oldText : Text) (spans : List (Nat × Nat)) (rebuild : Nat → List Text)
    (outcome : Except Text LevelOutcome) : Prop where
  found : ∀ output, outcome = .ok (.found output) → ∃ i j f l, (i, j) ∈ spans ∧ i ≤ j ∧
    (split content)[i]? = some f ∧ (split content)[j]? = some l ∧
    size content (i, j) ≤ spanLimit oldText ∧
    (∀ span ∈ spans, size content span ≤ spanLimit oldText → span = (i, j)) ∧
    output = whole ((split content).take i) ++
      (spliced f l (rebuild i) ++ whole ((split content).drop (j + 1)))
  missed : ∀ res, outcome = .ok res → (∀ output, res ≠ .found output) →
    ∀ span ∈ spans, spanLimit oldText < size content span

theorem acceptUniqueSpans_decided {content oldText : Text} {spans cands : List (Nat × Nat)}
    {rebuild : Nat → Option (List Text)} {new : Nat → List Text} (level : Level)
    (hspans : ∀ span ∈ spans, span.1 ≤ span.2 ∧ span.2 < (split content).length)
    (hcands : cands = spans.map fun span => (span.1, size content span))
    (hnew : ∀ span ∈ spans, rebuild span.1 = some (new span.1)) :
    ∃ outcome, acceptUniqueSpans level cands oldText
      (buildSpan content (lineInfos content) spans rebuild) = some outcome ∧
      Decided content oldText spans new outcome := by
  have hcand {p : Nat} {span : Nat × Nat} (h : spans[p]? = some span) :
      cands[p]? = some (span.1, size content span) := by
    rw [hcands, List.getElem?_map, h]
    rfl
  obtain ⟨hall, outcome, hres, hno⟩ | ⟨p, c, hget, hle, honly, hres⟩ | ⟨msg, hres⟩ :=
    acceptUniqueSpans_cases level cands oldText
      (buildSpan content (lineInfos content) spans rebuild)
  · refine ⟨_, hres, fun output he => absurd (Except.ok.inj he) (hno output), fun _ _ _ span hs => ?_⟩
    refine hall (span.1, size content span) ?_
    rw [hcands]
    exact List.mem_map_of_mem hs
  · rw [hcands, List.getElem?_map] at hget
    obtain ⟨⟨i, j⟩, hspan, rfl⟩ := Option.map_eq_some_iff.mp hget
    have hmem := List.mem_of_getElem? hspan
    obtain ⟨hij, hj⟩ := hspans (i, j) hmem
    obtain ⟨f, hi⟩ : ∃ f, (split content)[i]? = some f :=
      ⟨_, List.getElem?_eq_getElem (Nat.lt_of_le_of_lt hij hj)⟩
    obtain ⟨l, hj'⟩ : ∃ l, (split content)[j]? = some l := ⟨_, List.getElem?_eq_getElem hj⟩
    have hbuild : buildSpan content (lineInfos content) spans rebuild p = some (.ok (.found
        (whole ((split content).take i) ++ (spliced f l (new i) ++
          whole ((split content).drop (j + 1)))))) := by
      rw [buildSpan, hspan]
      simp only [Option.bind_eq_bind, Option.bind_some, hnew (i, j) hmem,
        spliceSpan_eq hij hi hj']
    refine ⟨_, hres.trans hbuild, fun output he => ?_, fun res he hno => ?_⟩
    · obtain rfl := LevelOutcome.found.inj (Except.ok.inj he)
      refine ⟨i, j, f, l, hmem, hij, hi, hj', hle, fun span hs hsize => ?_, rfl⟩
      obtain ⟨p', hp'⟩ := List.mem_iff_getElem?.mp hs
      have hpp := honly p' _ (hcand hp') hsize
      rw [hpp, hspan] at hp'
      exact (Option.some.inj hp').symm
    · exact absurd (Except.ok.inj he).symm (hno _)
  · exact ⟨_, hres, nofun, nofun⟩

/-! Levels whose spans have as many lines as the old text. -/

/-- The lines from the `i`-th to the `j`-th stand in the relation to the given ones. -/
structure SameLines (q : Text → Text → Prop) (ls : List Line) (xs : List Text) (i j : Nat) :
    Prop where
  nonempty : xs ≠ []
  count : i + xs.length = j + 1
  bound : j < ls.length
  related : ∀ k l x, ls[i + k]? = some l → xs[k]? = some x → q l.text x

def sameAt (q : Text → Text → Bool) (ls : List Line) (xs : List Text) (i k : Nat) : Bool :=
  match ls[i + k]?, xs[k]? with
  | some l, some x => q l.text x
  | _, _ => false

def sameSpans (q : Text → Text → Bool) (ls : List Line) (xs : List Text) : List (Nat × Nat) :=
  if xs.length = 0 ∨ ls.length < xs.length then []
  else (List.range (ls.length - xs.length + 1)).flatMap fun i =>
    if (List.range xs.length).all (sameAt q ls xs i) then [(i, i + xs.length - 1)] else []

theorem mem_sameSpans {q : Text → Text → Bool} {ls : List Line} {xs : List Text} {i j : Nat} :
    (i, j) ∈ sameSpans q ls xs ↔ SameLines (fun f x => q f x = true) ls xs i j := by
  rw [sameSpans]
  split
  · rename_i hout
    refine iff_of_false List.not_mem_nil fun h => ?_
    have hpos := List.length_pos_of_ne_nil h.nonempty
    have hcount := h.count
    have hbound := h.bound
    omega
  rename_i hin
  rw [List.mem_flatMap]
  constructor
  · rintro ⟨a, ha, hmem⟩
    have hle := List.mem_range.mp ha
    split at hmem
    · rename_i hall
      obtain ⟨rfl, rfl⟩ := Prod.mk.inj (List.mem_singleton.mp hmem)
      refine ⟨fun hnil => hin (Or.inl (congrArg List.length hnil)), by omega, by omega,
        fun k l x hl hx => ?_⟩
      have hk := (List.getElem?_eq_some_iff.mp hx).1
      have hsame := List.all_eq_true.mp hall k (List.mem_range.mpr hk)
      rwa [sameAt, hl, hx] at hsame
    · cases hmem
  · intro h
    have hpos := List.length_pos_of_ne_nil h.nonempty
    have hcount := h.count
    have hbound := h.bound
    have hall : (List.range xs.length).all (sameAt q ls xs i) = true := by
      refine List.all_eq_true.mpr fun k hk => ?_
      have hk := List.mem_range.mp hk
      have hl := List.getElem?_eq_getElem (l := ls) (i := i + k) (by omega)
      have hx := List.getElem?_eq_getElem (l := xs) hk
      rw [sameAt, hl, hx]
      exact h.related k _ _ hl hx
    refine ⟨i, List.mem_range.mpr (by omega), ?_⟩
    rw [if_pos hall, List.mem_singleton, Prod.mk.injEq]
    exact ⟨rfl, by omega⟩

theorem sameSpans_bound {q : Text → Text → Bool} {ls : List Line} {xs : List Text} :
    ∀ span ∈ sameSpans q ls xs, span.1 ≤ span.2 ∧ span.2 < ls.length := by
  rintro ⟨i, j⟩ hmem
  have h := mem_sameSpans.mp hmem
  have hpos := List.length_pos_of_ne_nil h.nonempty
  have hcount := h.count
  exact ⟨by omega, h.bound⟩

theorem sameCountCandidates_eq (q : Text → Text → Bool) (content : Text) (xs : List Text) :
    sameCountCandidates (lineInfos content) xs.length (fun fl k =>
      (xs[k]?).map fun x => q fl.text x) =
    some ((sameSpans q (split content) xs).map fun span => (span.1, size content span)) := by
  rw [sameCountCandidates, sameSpans, lineInfos_length]
  split
  · rfl
  rename_i hin
  rw [List.map_flatMap]
  refine gather_eq fun i hi => ?_
  have hi := List.mem_range.mp hi
  have hall : ((List.range xs.length).allM fun k => do
      let fl ← (lineInfos content)[i + k]?
      (xs[k]?).map fun x => q fl.text x) =
      some ((List.range xs.length).all (sameAt q (split content) xs i)) := by
    refine allM_eq fun k hk => ?_
    have hk := List.mem_range.mp hk
    have hl := List.getElem?_eq_getElem (l := split content) (i := i + k) (by omega)
    have hx := List.getElem?_eq_getElem (l := xs) hk
    rw [lineInfos_getElem? hl, sameAt, hl, hx]
    rfl
  rw [hall]
  simp only [Option.bind_eq_bind, Option.bind_some]
  split
  · rw [spanBytes_eq (by omega) (by omega)]
    rfl
  · rfl

/-- The result of such a level. -/
theorem acceptBlocks_decided {q : Text → Text → Bool} {content oldText : Text} {xs : List Text}
    {rebuild : Nat → Option (List Text)} {new : Nat → List Text} (level : Level)
    (hnew : ∀ span ∈ sameSpans q (split content) xs, rebuild span.1 = some (new span.1)) :
    ∃ outcome, acceptBlocks level content oldText (lineInfos content) xs.length
      ((sameSpans q (split content) xs).map fun span => (span.1, size content span)) rebuild =
        some outcome ∧
      Decided content oldText (sameSpans q (split content) xs) new outcome := by
  have hspans : ((sameSpans q (split content) xs).map fun span => (span.1, size content span)).map
      (fun c => (c.1, c.1 + xs.length - 1)) = sameSpans q (split content) xs := by
    rw [List.map_map]
    refine (List.map_congr_left fun span hs => ?_).trans (List.map_id _)
    obtain ⟨i, j⟩ := span
    have hcount := (mem_sameSpans.mp hs).count
    refine Prod.ext rfl ?_
    change i + xs.length - 1 = j
    omega
  rw [acceptBlocks, hspans]
  exact acceptUniqueSpans_decided level sameSpans_bound rfl hnew

end NemesisBot.EditReplacers
