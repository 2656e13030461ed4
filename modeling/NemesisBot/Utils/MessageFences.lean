import NemesisBot.Utils.MessageRounds

/-! Which chunks of a split message close the blocks they open. -/
namespace NemesisBot.Message
open Strings Offsets

/-- The fences of a text, none of them sharing a character with another. -/
def fences : Text → Nat
  | '`' :: '`' :: '`' :: s => fences s + 1
  | _ :: s => fences s
  | [] => 0

theorem eq_fence_append {c : Char} {s : Text} (h : fence <+: c :: s) :
    ∃ t, c = '`' ∧ s = '`' :: '`' :: t := by
  obtain ⟨t, ht⟩ := h
  obtain ⟨hc, hs⟩ := List.cons.inj ht
  exact ⟨t, hc.symm, hs.symm⟩

theorem fence_front (s : Text) : fence <+: '`' :: '`' :: '`' :: s := List.prefix_append fence s

theorem fences_fence (s : Text) : fences (fence ++ s) = fences s + 1 := rfl

theorem fences_cons {c : Char} {s : Text} (h : ¬ fence <+: c :: s) : fences (c :: s) = fences s := by
  rw [fences]
  intro t hc hs
  rw [hc, hs] at h
  exact h (fence_front t)

theorem openBlock_cons {off : Nat} {block : Option Nat} {c : Char} {s : Text}
    (h : ¬ fence <+: c :: s) :
    openBlock off block (c :: s) = openBlock (off + c.utf8Size) block s := by
  rw [openBlock]
  intro t hc hs
  rw [hc, hs] at h
  exact h (fence_front t)

theorem closingFrom_cons {off : Nat} {block : Bool} {c : Char} {s : Text} (h : ¬ fence <+: c :: s) :
    closingFrom off block (c :: s) = closingFrom (off + c.utf8Size) block s := by
  rw [closingFrom]
  intro t hc hs
  rw [hc, hs] at h
  exact h (fence_front t)

/-- A text is empty, or begins with a fence, or with another character. -/
theorem fences_induct {P : Text → Prop} (nil : P []) (cut : ∀ s, P s → P (fence ++ s))
    (cons : ∀ c s, ¬ fence <+: c :: s → P s → P (c :: s)) (s : Text) : P s := by
  fun_induction fences s with
  | case1 s ih => exact cut s ih
  | case2 c s hne ih =>
    refine cons c s (fun h => ?_) ih
    obtain ⟨t, rfl, rfl⟩ := eq_fence_append h
    exact hne t rfl rfl
  | case3 => exact nil

/-- A block is open behind an odd number of fences. -/
theorem openBlock_isSome (off : Nat) (block : Option Nat) (s : Text) :
    (openBlock off block s).isSome = (block.isSome ^^ decide (fences s % 2 = 1)) := by
  induction s using fences_induct generalizing off block with
  | nil => simp [openBlock, fences]
  | cut s ih =>
    have hodd : decide ((fences s + 1) % 2 = 1) = !decide (fences s % 2 = 1) := by
      rw [← decide_not, decide_eq_decide]
      omega
    rw [fences_fence, hodd]
    change (openBlock (off + 3) _ s).isSome = _
    rw [ih]
    cases block with
    | none => exact Bool.true_xor _ |>.trans (Bool.false_xor _).symm
    | some k => exact (Bool.false_xor _).trans ((Bool.true_xor _).trans (Bool.not_not _)).symm
  | cons c s h ih => rw [openBlock_cons h, fences_cons h, ih]

theorem openBlock_eq_none_iff (s : Text) : openBlock 0 none s = none ↔ fences s % 2 = 0 := by
  have h := openBlock_isSome 0 none s
  rw [Option.isSome_none, Bool.false_xor] at h
  rw [← Option.not_isSome_iff_eq_none, h, decide_eq_true_iff]
  omega

/-! Fences on both sides of a cut. -/

/-- A run of backticks goes on behind the cut. -/
def CutsRun (u v : Text) : Prop := u.getLast? = some '`' ∧ v.head? = some '`'

instance (u v : Text) : Decidable (CutsRun u v) := inferInstanceAs (Decidable (_ ∧ _))

theorem not_fence_append {c : Char} {u v : Text} (h : ¬ fence <+: c :: u)
    (hcut : ¬ CutsRun (c :: u) v) : ¬ fence <+: c :: (u ++ v) := by
  intro hfence
  obtain ⟨t, rfl, ht⟩ := eq_fence_append hfence
  cases u with
  | nil =>
    rw [List.nil_append] at ht
    exact hcut ⟨rfl, by rw [ht]; rfl⟩
  | cons d u =>
    obtain ⟨rfl, hu⟩ := List.cons.inj ht
    cases u with
    | nil =>
      change v = '`' :: t at hu
      exact hcut ⟨rfl, by rw [hu]; rfl⟩
    | cons e u =>
      obtain ⟨he, -⟩ := List.cons.inj hu
      rw [he] at h
      exact h (fence_front u)

theorem CutsRun.cons {u v : Text} (c : Char) (h : CutsRun u v) : CutsRun (c :: u) v := by
  refine ⟨?_, h.2⟩
  rw [List.getLast?_cons, h.1]
  rfl

theorem CutsRun.append {u v : Text} (w : Text) (h : CutsRun u v) : CutsRun (w ++ u) v := by
  induction w with
  | nil => exact h
  | cons c w ih => exact ih.cons c

theorem fences_append {u v : Text} (h : ¬ CutsRun u v) : fences (u ++ v) = fences u + fences v := by
  induction u using fences_induct with
  | nil => exact (Nat.zero_add _).symm
  | cut u ih =>
    rw [List.append_assoc, fences_fence, fences_fence, ih fun hcut => h (hcut.append fence),
      Nat.add_right_comm]
  | cons c u hc ih =>
    rw [List.cons_append, fences_cons (not_fence_append hc h), fences_cons hc,
      ih fun hcut => h (hcut.cons c)]

theorem inCodeBlock_stop {start off : Nat} (block : Bool) (s : Text) (h : start ≤ off) :
    inCodeBlock start off block s = block := by
  unfold inCodeBlock
  exact if_pos h

theorem inCodeBlock_fence {start off : Nat} (block : Bool) (s : Text) (h : off < start) :
    inCodeBlock start off block (fence ++ s) = inCodeBlock start (off + 3) (!block) s := by
  conv_lhs => unfold inCodeBlock
  exact if_neg (Nat.not_le_of_lt h)

theorem inCodeBlock_cons {start off : Nat} (block : Bool) {c : Char} {s : Text} (h : off < start)
    (hc : ¬ fence <+: c :: s) :
    inCodeBlock start off block (c :: s) = inCodeBlock start (off + c.utf8Size) block s := by
  conv_lhs => unfold inCodeBlock
  rw [if_neg (Nat.not_le_of_lt h)]
  split
  · rename_i t heq
    exact absurd (heq ▸ fence_front t) hc
  · rename_i d t _ heq
    obtain ⟨rfl, rfl⟩ := List.cons.inj heq
    rfl
  · rename_i heq
    cases heq

/-- At a cut that no run of backticks goes across, the block state is that of the part before. -/
theorem inCodeBlock_append {start off : Nat} {block : Bool} {u v : Text} (h : ¬ CutsRun u v)
    (hstart : off + byteLen u = start) :
    inCodeBlock start off block (u ++ v) = (block ^^ decide (fences u % 2 = 1)) := by
  induction u using fences_induct generalizing off block with
  | nil =>
    exact (inCodeBlock_stop block v (Nat.le_of_eq hstart.symm)).trans (Bool.xor_false block).symm
  | cut u ih =>
    have hlen : byteLen fence = 3 := by decide
    rw [byteLen_append, hlen, ← Nat.add_assoc] at hstart
    have hodd : decide ((fences u + 1) % 2 = 1) = !decide (fences u % 2 = 1) := by
      rw [← decide_not, decide_eq_decide]
      omega
    rw [List.append_assoc, inCodeBlock_fence _ _ (by omega),
      ih (fun hcut => h (hcut.append fence)) hstart, fences_fence, hodd, Bool.not_xor, Bool.xor_not]
  | cons c u hc ih =>
    have hpos := c.utf8Size_pos
    have hlen : byteLen (c :: u) = c.utf8Size + byteLen u := rfl
    rw [hlen, ← Nat.add_assoc] at hstart
    rw [List.cons_append, inCodeBlock_cons _ (by omega) (not_fence_append hc h),
      ih (fun hcut => h (hcut.cons c)) hstart, fences_cons hc]

theorem fences_le (s : Text) : 3 * fences s ≤ byteLen s := by
  induction s using fences_induct with
  | nil => exact Nat.le_refl 0
  | cut s ih =>
    have hlen : byteLen fence = 3 := by decide
    rw [fences_fence, byteLen_append, hlen]
    omega
  | cons c s hc ih =>
    rw [fences_cons hc]
    exact Nat.le_trans ih (Nat.le_add_left _ _)

theorem not_fence_front {c : Char} {x y : Text} (h : ¬ fence <+: c :: (x ++ y)) :
    ¬ fence <+: c :: x := fun hx => h (hx.trans ⟨y, rfl⟩)

/-- If a block is open, it is closed at the end of the first fence that comes. -/
theorem closingFrom_spec (off : Nat) (v : Text) :
    (closingFrom off true v = 0 ∧ ∀ w z, v = w ++ z → fences w = 0) ∨ ∃ x y, v = x ++ y ∧
      off + byteLen x = closingFrom off true v ∧ fences x = 1 ∧
      ∀ w z, v = w ++ z → byteLen w < byteLen x → fences w = 0 := by
  induction v using fences_induct generalizing off with
  | nil =>
    refine Or.inl ⟨rfl, fun w z hw => ?_⟩
    rw [(List.append_eq_nil_iff.mp hw.symm).1]
    rfl
  | cut v ih =>
    refine Or.inr ⟨fence, v, rfl, rfl, rfl, fun w z _ hlt => ?_⟩
    have hlen : byteLen fence = 3 := by decide
    have hle := fences_le w
    omega
  | cons c v hc ih =>
    have hstep {w z : Text} (hw : c :: v = w ++ z)
        (h : ∀ w', v = w' ++ z → w = c :: w' → fences w' = 0) : fences w = 0 := by
      cases w with
      | nil => rfl
      | cons d w =>
        obtain ⟨rfl, rfl⟩ := List.cons.inj hw
        exact (fences_cons (not_fence_front hc)).trans (h w rfl rfl)
    rw [closingFrom_cons hc]
    cases ih (off + c.utf8Size) with
    | inl hnone => exact Or.inl ⟨hnone.1, fun w z hw => hstep hw fun w' hw' _ => hnone.2 w' z hw'⟩
    | inr hsome =>
      obtain ⟨x, y, rfl, hlen, hx, hfirst⟩ := hsome
      refine Or.inr ⟨c :: x, y, rfl, ?_, ?_, fun w z hw hlt => hstep hw fun w' hw' he => ?_⟩
      · rw [← hlen, Nat.add_assoc]
        rfl
      · rw [fences_cons (not_fence_front hc), hx]
      · rw [he] at hlt
        exact hfirst w' z hw' (Nat.lt_of_add_lt_add_left hlt)

/-! Rounds. -/

def blockOpenAt (s : Text) (k : Nat) : Bool :=
  (cutAt Char.utf8Size k s).any fun c => (openBlock 0 none c.1).isSome

/-- The condition on the natural cut between `u` and `v`, and on the place that is cut instead. -/
def Cut.KeepsBlocks (s u v : Text) : Cut → Prop
  | .natural _ => openBlock 0 none u ≠ some 0
  | .extended k => CutsRun u v → blockOpenAt s k = false
  | .before k => blockOpenAt s k = false
  | .inside k _ _ => CutsRun u v → blockOpenAt s k = true

/-- The content before a round is such that the round does not leave a block of its chunk open. -/
def KeepsBlocks (maxLen : Nat) (s : Text) : Prop :=
  if byteLen s ≤ maxLen then openBlock 0 none s = none
  else ∃ stop u v cut, naturalEnd maxLen s = some stop ∧ cutAt Char.utf8Size stop s = some (u, v) ∧
    chooseCut maxLen s = some cut ∧ cut.KeepsBlocks s u v

theorem keepsBlocks_iff {maxLen stop : Nat} {s u v : Text} {cut : Cut}
    (h : Begun maxLen s stop u v cut) : KeepsBlocks maxLen s ↔ cut.KeepsBlocks s u v := by
  have hcut := cut_text.mpr ⟨h.natural.split, h.natural.len⟩
  rw [KeepsBlocks, if_neg (Nat.not_le_of_lt h.long)]
  constructor
  · rintro ⟨stop', u', v', cut', hstop, huv, hchoice, hkeeps⟩
    obtain rfl := Option.some.inj (h.placed.symm.trans hstop)
    obtain rfl := Option.some.inj (h.choice.symm.trans hchoice)
    obtain ⟨rfl, rfl⟩ := Prod.mk.inj (Option.some.inj (hcut.symm.trans huv))
    exact hkeeps
  · exact fun hkeeps => ⟨stop, u, v, cut, h.placed, hcut, h.choice, hkeeps⟩

theorem blockOpenAt_append {x y : Text} {k : Nat} (hx : byteLen x = k) :
    blockOpenAt (x ++ y) k = decide (fences x % 2 = 1) := by
  rw [blockOpenAt, cut_text.mpr ⟨rfl, hx⟩, Option.any_some, openBlock_isSome]
  exact Bool.false_xor _

theorem cut_unique {u v x y : Text} (h : u ++ v = x ++ y) (hlen : byteLen u = byteLen x) :
    u = x ∧ v = y :=
  Prod.mk.inj (Option.some.inj ((cut_text.mpr ⟨rfl, hlen⟩).symm.trans (cut_text.mpr ⟨h, rfl⟩)))

theorem odd_of_unclosed {u : Text} (h : 0 < findLastUnclosedCodeBlock u) : fences u % 2 = 1 := by
  have hopen := (not_congr (openBlock_eq_none_iff u)).mp fun hnone => by
    rw [findLastUnclosedCodeBlock, hnone] at h
    exact Nat.lt_irrefl 0 h
  omega

theorem even_natural_iff {u : Text} (h : findLastUnclosedCodeBlock u = 0) :
    fences u % 2 = 0 ↔ openBlock 0 none u ≠ some 0 := by
  rw [← openBlock_eq_none_iff]
  rw [findLastUnclosedCodeBlock] at h
  cases hopen : openBlock 0 none u with
  | none =>
    refine iff_of_true rfl fun h => ?_
    cases h
  | some k =>
    rw [hopen] at h
    refine iff_of_false (fun hnone => ?_) fun hne => hne (congrArg some h)
    cases hnone

theorem CutsRun.of_append {u x y : Text} (h : CutsRun u x) : CutsRun u (x ++ y) := by
  refine ⟨h.1, ?_⟩
  rw [List.head?_append, h.2]
  rfl

/-- Up to the closing fence behind the cut, the fences are paired. -/
theorem even_extended {s u v x y : Text} {stop k : Nat} (hs : s = u ++ v) (hu : byteLen u = stop)
    (hopen : 0 < findLastUnclosedCodeBlock u) (hrun : ¬ CutsRun u v)
    (hk : findNextClosingCodeBlock s stop = k) (hpos : 0 < k) (hx : u ++ v = x ++ y)
    (hlen : byteLen x = k) : fences x % 2 = 0 := by
  have hodd := odd_of_unclosed hopen
  have hstate := @inCodeBlock_append stop 0 false u v hrun (by rw [hu, Nat.zero_add])
  rw [hodd] at hstate
  rw [hs, findNextClosing_eq hu, hstate] at hk
  have hsome := (closingFrom_spec stop v).resolve_left fun hnone => by
    have hzero := hnone.1.symm.trans hk
    omega
  obtain ⟨z, w, rfl, hz, hone, -⟩ := hsome
  have hux : u ++ z = x := by
    rw [← List.append_assoc] at hx
    refine (cut_unique hx ?_).1
    rw [byteLen_append, hu, hlen, hz]
    exact hk
  rw [← hux, fences_append fun hcut => hrun hcut.of_append, hone]
  omega

/-- Where no closing fence comes before the cut inside a block, the block is open there. -/
theorem odd_inside {s u v x y : Text} {stop maxLen k : Nat} (hs : s = u ++ v) (hu : byteLen u = stop)
    (hopen : 0 < findLastUnclosedCodeBlock u) (hrun : ¬ CutsRun u v)
    (hno : findNextClosingCodeBlock s stop = 0 ∨ maxLen < findNextClosingCodeBlock s stop)
    (hx : u ++ v = x ++ y) (hlen : byteLen x = k) (hstop : stop ≤ k) (hk : k ≤ maxLen) :
    fences x % 2 = 1 := by
  have hodd := odd_of_unclosed hopen
  have hstate := @inCodeBlock_append stop 0 false u v hrun (by rw [hu, Nat.zero_add])
  rw [hodd] at hstate
  rw [hs, findNextClosing_eq hu, hstate] at hno
  obtain ⟨w, rfl, rfl⟩ := upto_cut hx.symm (by omega)
  have hclear : fences w = 0 := by
    cases closingFrom_spec stop (w ++ y) with
    | inl hnone => exact hnone.2 w y rfl
    | inr hsome =>
      obtain ⟨z, z', -, hz, hone, hfirst⟩ := hsome
      refine hfirst w y rfl ?_
      change closingFrom stop true (w ++ y) = 0 ∨ maxLen < closingFrom stop true (w ++ y) at hno
      have hle := fences_le z
      rw [byteLen_append] at hlen
      omega
  rw [fences_append fun hcut => hrun hcut.of_append, hclear]
  exact hodd

theorem fences_of_not_mem {s : Text} (h : '`' ∉ s) : fences s = 0 := by
  induction s with
  | nil => rfl
  | cons c s ih =>
    obtain ⟨hne, hs⟩ := List.ne_and_not_mem_of_not_mem_cons h
    have hc : ¬ fence <+: c :: s := by
      intro hc
      obtain ⟨t, rfl, -⟩ := eq_fence_append hc
      exact hne rfl
    rw [fences_cons hc, ih hs]

/-- The closing fence is the only one that a cut inside a block adds. -/
theorem fences_closed (p : List Token) :
    fences (textOf (trimEndBlanks p ++ inserted "\n```".toList)) = fences (textOf p) + 1 := by
  obtain ⟨blanks, hp, hblanks⟩ := trimEndBlanks_split p
  have hno : '`' ∉ textOf blanks := fun hmem => absurd (hblanks _ hmem) (by decide)
  have hcut : ¬ CutsRun (textOf (trimEndBlanks p)) (textOf blanks) :=
    fun hcut => hno (List.mem_of_head? hcut.2)
  have hend : ¬ CutsRun (textOf (trimEndBlanks p)) "\n```".toList :=
    fun hcut => absurd hcut.2 (by decide +kernel)
  conv_rhs => rw [hp, textOf_append, fences_append hcut, fences_of_not_mem hno]
  rw [textOf_append, textOf_inserted, fences_append hend]
  rfl

/-- A chunk closes the blocks it opens exactly if the content before the round is such. -/
theorem Rounded.even_iff {maxLen : Nat} {content chunk rest : List Token}
    (h : Rounded maxLen content chunk rest) :
    fences (textOf chunk) % 2 = 0 ↔ KeepsBlocks maxLen (textOf content) := by
  cases h with
  | fits hle => rw [KeepsBlocks, if_pos hle, openBlock_eq_none_iff]
  | @apart stop k u v cut _ q hbegun hk hpq hp hpos hmax =>
    have hs := hbegun.natural.split
    have hu := hbegun.natural.len
    have hcontent : textOf content = textOf chunk ++ textOf q := by rw [hpq, textOf_append]
    have hat : blockOpenAt (textOf content) k = false ↔ fences (textOf chunk) % 2 = 0 := by
      rw [hcontent, blockOpenAt_append hp, decide_eq_false_iff_not]
      omega
    rw [keepsBlocks_iff hbegun]
    obtain rfl | rfl | rfl := hk
    · cases hbegun.chosen with
      | natural hclosed =>
        rw [← (cut_unique (hs.symm.trans hcontent) (hu.trans hp.symm)).1]
        exact even_natural_iff hclosed
    · cases hbegun.chosen with
      | extended _ hopen hk hpos _ =>
        by_cases hrun : CutsRun u v
        · exact ⟨fun heven _ => hat.mpr heven, fun hkeeps => hat.mp (hkeeps hrun)⟩
        · exact iff_of_true (even_extended hs hu hopen hrun hk hpos (hs.symm.trans hcontent) hp)
            fun hcut => absurd hcut hrun
    · exact hat.symm
  | @within stop k e u v pre seg post header p q hbegun hinside hopen hno hstop hpq hp hheader =>
    have hs := hbegun.natural.split
    have hu := hbegun.natural.len
    have hcontent : textOf content = textOf p ++ textOf q := by rw [hpq, textOf_append]
    have hat : blockOpenAt (textOf content) k = true ↔ (fences (textOf p) + 1) % 2 = 0 := by
      rw [hcontent, blockOpenAt_append hp, decide_eq_true_iff]
      omega
    rw [keepsBlocks_iff hbegun, fences_closed]
    by_cases hrun : CutsRun u v
    · exact ⟨fun heven _ => hat.mpr heven, fun hkeeps => hat.mp (hkeeps hrun)⟩
    · have hle := hinside.le
      have hodd := odd_inside hs hu hopen hrun hno (hs.symm.trans hcontent) hp hstop (by omega)
      exact iff_of_true (by omega) fun hcut => absurd hcut hrun

/-- A block at the start of the text, longer than a chunk. -/
def longBlock : Text := "```\n".toList ++ List.replicate 80 'a' ++ "\n```".toList

end NemesisBot.Message
