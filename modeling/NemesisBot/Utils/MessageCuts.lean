import NemesisBot.Utils.Message

/-! Where a round of the splitter cuts. -/
namespace NemesisBot.Message
open Strings Offsets

theorem token_size_pos (t : Token) : 0 < t.size := t.char.utf8Size_pos

theorem textOf_append (p q : List Token) : textOf (p ++ q) = textOf p ++ textOf q := List.map_append

theorem byteLen_textOf (r : List Token) : byteLen (textOf r) = len Token.size r :=
  @len_map Char Char.utf8Size Token Token.char r

/-- Where the text can be cut, so can the tokens. -/
theorem cut_tokens {r : List Token} {u v : Text} {k : Nat} (h : textOf r = u ++ v)
    (hk : byteLen u = k) : ∃ p q, cutAt Token.size k r = some (p, q) ∧ r = p ++ q ∧
      textOf p = u ∧ textOf q = v := by
  obtain ⟨p, q, rfl, rfl, rfl⟩ := List.map_eq_append_iff.mp h
  exact ⟨p, q, (cutAt_eq_some_iff token_size_pos).mpr ⟨rfl, by rw [← hk, ← byteLen_textOf]; rfl⟩,
    rfl, rfl, rfl⟩

theorem cut_text {s u v : Text} {k : Nat} :
    cutAt Char.utf8Size k s = some (u, v) ↔ s = u ++ v ∧ byteLen u = k :=
  cutAt_eq_some_iff Char.utf8Size_pos

/-- The last place in the window, or 0: a real place unless it is 0, and none comes after it. -/
theorem lastOrZero_spec (p : Char → Bool) (s : Text) (w : Nat) :
    ((lastAt Char.utf8Size p (byteLen s - w) 0 s).getD 0 = 0 ∨ ∃ u c v, s = u ++ c :: v ∧ p c = true ∧
      byteLen u = (lastAt Char.utf8Size p (byteLen s - w) 0 s).getD 0 ∧ byteLen s ≤ byteLen u + w) ∧
    ∀ u c v, s = u ++ c :: v → p c = true → byteLen s ≤ byteLen u + w →
      byteLen u ≤ (lastAt Char.utf8Size p (byteLen s - w) 0 s).getD 0 := by
  cases h : lastAt Char.utf8Size p (byteLen s - w) 0 s with
  | none =>
    refine ⟨Or.inl rfl, fun u c v hs hc hw => ?_⟩
    have hfalse := lastAt_eq_none h hs (by change _ ≤ 0 + byteLen u; omega)
    rw [hfalse] at hc
    cases hc
  | some k =>
    obtain ⟨⟨u, c, v, hs, hlen, hc, hlo⟩, hmax⟩ := lastAt_eq_some h
    rw [Nat.zero_add] at hlen
    refine ⟨Or.inr ⟨u, c, v, hs, hc, hlen, ?_⟩, fun x d y hx hd hw => ?_⟩
    · change len _ u = k at hlen
      change byteLen s ≤ len _ u + w
      omega
    · have hle := hmax x d y hx (by change _ ≤ 0 + byteLen x; omega) hd
      rwa [Nat.zero_add] at hle

theorem findLastNewline_spec (s : Text) (w : Nat) :
    (findLastNewline s w = 0 ∨ ∃ u v, s = u ++ '\n' :: v ∧ byteLen u = findLastNewline s w ∧
      byteLen s ≤ byteLen u + w) ∧
    ∀ u v, s = u ++ '\n' :: v → byteLen s ≤ byteLen u + w → byteLen u ≤ findLastNewline s w := by
  obtain ⟨hplace, hmax⟩ := lastOrZero_spec (· = '\n') s w
  refine ⟨hplace.imp_right ?_, fun u v hs => hmax u '\n' v hs (decide_eq_true rfl)⟩
  rintro ⟨u, c, v, hs, hc, hlen⟩
  obtain rfl := of_decide_eq_true hc
  exact ⟨u, v, hs, hlen⟩

theorem findLastSpace_spec (s : Text) (w : Nat) :
    findLastSpace s w = 0 ∨ ∃ u v, s = u ++ v ∧ byteLen u = findLastSpace s w := by
  obtain ⟨hplace, -⟩ := lastOrZero_spec (fun c => c = ' ' || c = '\t') s w
  refine hplace.imp_right ?_
  rintro ⟨u, c, v, hs, -, hlen, -⟩
  exact ⟨u, c :: v, hs, hlen⟩

/-- A cut at a limit misses it by less than a character. -/
theorem usableCut_spec {s : Text} {limit : Nat} (h4 : 4 ≤ limit) (hs : limit ≤ byteLen s) :
    (∃ u v, s = u ++ v ∧ byteLen u = usableCut s limit) ∧ usableCut s limit ≤ limit ∧
      limit ≤ usableCut s limit + 3 := by
  obtain ⟨hcut, hnear⟩ := @floorAt_spec Char Char.utf8Size limit 4 Char.utf8Size_le_four s
  have hle := @floorAt_le Char Char.utf8Size s limit
  have hclose := hnear hs
  have he : usableCut s limit = floorAt Char.utf8Size limit s := by
    simp only [usableCut]
    rw [if_pos (by omega)]
  rw [he]
  exact ⟨hcut, hle, by omega⟩

theorem effectiveLimit_spec {s : Text} {maxLen : Nat} (hm : 64 ≤ maxLen) (hs : maxLen < byteLen s) :
    (∃ u v, s = u ++ v ∧ byteLen u = effectiveLimit maxLen s) ∧
      29 ≤ effectiveLimit maxLen s ∧ effectiveLimit maxLen s + 32 ≤ maxLen := by
  have hbuffer : 32 ≤ codeBlockBuffer maxLen ∧ codeBlockBuffer maxLen ≤ maxLen / 2 := by
    simp only [codeBlockBuffer]
    split <;> split <;> omega
  have he : effectiveLimit maxLen s = usableCut s (maxLen - codeBlockBuffer maxLen) := by
    rw [effectiveLimit]
    exact congrArg (usableCut s) (if_neg (by omega))
  obtain ⟨hcut, hle, hnear⟩ := @usableCut_spec s (maxLen - codeBlockBuffer maxLen) (by omega)
    (by omega)
  rw [he]
  exact ⟨hcut, by omega, by omega⟩

/-- The natural place to cut. It is the end of a line, or there is no end of a line in the window
before the limit, unless the text begins with it. -/
structure Natural (maxLen : Nat) (s : Text) (stop : Nat) (u v : Text) : Prop where
  split : s = u ++ v
  len : byteLen u = stop
  pos : 0 < stop
  le : stop ≤ effectiveLimit maxLen s
  lines : (∃ w, v = '\n' :: w) ∨ ∀ x y, s = x ++ '\n' :: y → 0 < byteLen x →
    effectiveLimit maxLen s ≤ byteLen x + 200 → effectiveLimit maxLen s ≤ byteLen x

/-- What stands before a cut stands in the part before it. -/
theorem before_cut {u v x y : Text} {c : Char} (h : u ++ v = x ++ c :: y)
    (hlt : byteLen x < byteLen u) : ∃ z, u = x ++ c :: z ∧ y = z ++ v := by
  obtain ⟨w, rfl, hw⟩ | ⟨w, rfl, hw⟩ := List.append_eq_append_iff.mp h
  · rw [byteLen_append] at hlt
    omega
  · cases w with
    | nil =>
      rw [List.append_nil] at hlt
      omega
    | cons d z =>
      obtain ⟨rfl, rfl⟩ := List.cons.inj hw
      exact ⟨z, rfl, rfl⟩

theorem naturalEnd_spec {s : Text} {maxLen : Nat} (hm : 64 ≤ maxLen) (hs : maxLen < byteLen s) :
    ∃ stop u v, naturalEnd maxLen s = some stop ∧ Natural maxLen s stop u v := by
  obtain ⟨⟨head, tail, hsplit, hlen⟩, hlow, hhigh⟩ := effectiveLimit_spec hm hs
  have hcut := cut_text.mpr ⟨hsplit, hlen⟩
  obtain ⟨hplace, hmax⟩ := findLastNewline_spec head 200
  have hend : naturalEnd maxLen s = some (if (if findLastNewline head 200 = 0 then
      findLastSpace head 100 else findLastNewline head 200) = 0 then effectiveLimit maxLen s else
      if findLastNewline head 200 = 0 then findLastSpace head 100
      else findLastNewline head 200) := by
    rw [naturalEnd, hcut]
    rfl
  by_cases hline : findLastNewline head 200 = 0
  · have hlines : ∀ x y, s = x ++ '\n' :: y → 0 < byteLen x →
        effectiveLimit maxLen s ≤ byteLen x + 200 → effectiveLimit maxLen s ≤ byteLen x := by
      intro x y hx hpos hwindow
      by_contra hlt
      obtain ⟨z, hz, -⟩ := before_cut (hsplit.symm.trans hx) (by omega)
      have hle := hmax x z hz (by omega)
      omega
    rw [if_pos hline] at hend
    by_cases hspace : findLastSpace head 100 = 0
    · rw [if_pos hspace] at hend
      exact ⟨_, head, tail, hend, hsplit, hlen, by omega, Nat.le_refl _, Or.inr hlines⟩
    · rw [if_neg hspace] at hend
      obtain ⟨u, v, hu, hulen⟩ := (findLastSpace_spec head 100).resolve_left hspace
      have hle : byteLen u ≤ byteLen head := by
        rw [hu, byteLen_append]
        omega
      refine ⟨_, u, v ++ tail, hend, ?_, hulen, by omega, by omega, Or.inr hlines⟩
      rw [hsplit, hu, List.append_assoc]
  · rw [if_neg hline, if_neg hline] at hend
    obtain ⟨u, v, hu, hulen, -⟩ := hplace.resolve_left hline
    have hle : byteLen u ≤ byteLen head := by
      rw [hu, byteLen_append]
      omega
    refine ⟨_, u, '\n' :: (v ++ tail), hend, ?_, hulen, by omega, by omega, Or.inl ⟨_, rfl⟩⟩
    rw [hsplit, hu, List.append_assoc]
    rfl

/-! Fences. -/

def fence : Text := ['`', '`', '`']

/-- An open block began at a fence. -/
theorem openBlock_split {off k : Nat} {block : Option Nat} {s : Text}
    (h : openBlock off block s = some k) :
    block = some k ∨ ∃ x y, s = x ++ fence ++ y ∧ off + byteLen x = k := by
  fun_induction openBlock off block s with
  | case1 off block s ih =>
    cases ih h with
    | inl hb =>
      cases block with
      | none => exact Or.inr ⟨[], s, rfl, by simpa [byteLen] using hb⟩
      | some b => cases hb
    | inr hx =>
      obtain ⟨x, y, rfl, hlen⟩ := hx
      refine Or.inr ⟨fence ++ x, y, rfl, ?_⟩
      rw [byteLen_append, ← hlen, ← Nat.add_assoc]
      rfl
  | case2 off block c s _ ih =>
    refine (ih h).imp_right ?_
    rintro ⟨x, y, rfl, hlen⟩
    refine ⟨c :: x, y, rfl, ?_⟩
    rw [← hlen, Nat.add_assoc]
    rfl
  | case3 off block => exact Or.inl h

theorem closingFrom_split {off k : Nat} {block : Bool} {s : Text}
    (h : closingFrom off block s = k) : k = 0 ∨ ∃ x y, s = x ++ y ∧ off + byteLen x = k := by
  fun_induction closingFrom off block s with
  | case1 off s => exact Or.inr ⟨fence, s, rfl, h⟩
  | case2 off block s hb ih =>
    refine (ih h).imp_right ?_
    rintro ⟨x, y, rfl, hlen⟩
    refine ⟨fence ++ x, y, rfl, ?_⟩
    rw [byteLen_append, ← hlen, ← Nat.add_assoc]
    rfl
  | case3 off block c s _ ih =>
    refine (ih h).imp_right ?_
    rintro ⟨x, y, rfl, hlen⟩
    refine ⟨c :: x, y, rfl, ?_⟩
    rw [← hlen, Nat.add_assoc]
    rfl
  | case4 off block => exact Or.inl h.symm

/-- Where the text can be cut, the tail is what comes after the cut. -/
theorem tailFrom_append {off : Nat} (u v : Text) :
    tailFrom (off + byteLen u) off (u ++ v) = (off + byteLen u, v) := by
  induction u generalizing off with
  | nil =>
    cases v with
    | nil => rfl
    | cons c v => exact if_pos (Nat.le_refl _)
  | cons c u ih =>
    have hc := c.utf8Size_pos
    have hlen : byteLen (c :: u) = c.utf8Size + byteLen u := rfl
    rw [List.cons_append, tailFrom, if_neg (by omega), hlen, ← Nat.add_assoc]
    exact ih

theorem findNextClosing_eq {u v : Text} {k : Nat} (hk : byteLen u = k) :
    findNextClosingCodeBlock (u ++ v) k = closingFrom k (inCodeBlock k 0 false (u ++ v)) v := by
  have htail := @tailFrom_append 0 u v
  have hmin : min k (byteLen (u ++ v)) = k := by
    rw [byteLen_append]
    omega
  rw [Nat.zero_add, hk] at htail
  simp only [findNextClosingCodeBlock, hmin, htail]

/-! What a round chooses. -/

/-- A cut inside a block: `seg` is its header, which `pre` comes before. -/
structure Inside (maxLen : Nat) (s : Text) (stop unclosedIdx headerEnd : Nat)
    (pre seg post : Text) : Prop where
  split : s = pre ++ (seg ++ post)
  opened : byteLen pre = unclosedIdx
  header : byteLen (pre ++ seg) = headerEnd
  ne : pre ≠ []
  begins : ∃ more, seg = fence ++ more
  line : '\n' ∉ seg
  after : (∃ more, post = '\n' :: more) ∨ seg = fence ∧ '\n' ∉ post
  cut : ∃ u v, s = u ++ v ∧ byteLen u = stop
  le : stop + 5 ≤ maxLen
  far : headerEnd < stop ∨ '\n' ∉ pre.tail ∧ byteLen (pre ++ fence) < stop

/-- The choice of a round, after the natural cut between `u` and `v`. -/
inductive Chosen (maxLen : Nat) (s : Text) (stop : Nat) (u v : Text) : Cut → Prop
  | natural : findLastUnclosedCodeBlock u = 0 → Chosen maxLen s stop u v (.natural stop)
  | extended (k : Nat) : 0 < findLastUnclosedCodeBlock u →
      findNextClosingCodeBlock s stop = k → 0 < k → k ≤ maxLen →
      Chosen maxLen s stop u v (.extended k)
  | before (k : Nat) (x y : Text) : 0 < findLastUnclosedCodeBlock u → s = x ++ y →
      byteLen x = k → 0 < k → k ≤ stop → Chosen maxLen s stop u v (.before k)
  | inside (k h : Nat) (pre seg post : Text) : 0 < findLastUnclosedCodeBlock u →
      (findNextClosingCodeBlock s stop = 0 ∨ maxLen < findNextClosingCodeBlock s stop) →
      stop ≤ k → Inside maxLen s k (findLastUnclosedCodeBlock u) h pre seg post →
      Chosen maxLen s stop u v (.inside k (findLastUnclosedCodeBlock u) h)

theorem idxOf?_newline {a : Text} (ha : '\n' ∉ a) (b : Text) :
    (a ++ '\n' :: b).idxOf? '\n' = some a.length := by
  induction a with
  | nil => rfl
  | cons c a ih =>
    obtain ⟨hne, ha⟩ := List.ne_and_not_mem_of_not_mem_cons ha
    rw [List.cons_append, List.idxOf?_cons, if_neg (by simpa using hne.symm), ih ha]
    rfl

/-- The header ends at the end of its line, or right behind the fence if no line ends. -/
theorem header_spec (rest : Text) : ∃ seg post, fence ++ rest = seg ++ post ∧
    (∃ more, seg = fence ++ more) ∧ '\n' ∉ seg ∧
    ((∃ more, post = '\n' :: more) ∨ seg = fence ∧ '\n' ∉ post) ∧
    ∀ opened, headerEnd opened (fence ++ rest) = opened + byteLen seg := by
  have hfence : '\n' ∉ fence := by decide
  by_cases hr : '\n' ∈ rest
  · obtain ⟨a, b, rfl, ha⟩ := List.eq_append_cons_of_mem hr
    have hseg : '\n' ∉ fence ++ a := by
      rw [List.mem_append, not_or]
      exact ⟨hfence, ha⟩
    refine ⟨fence ++ a, '\n' :: b, by rw [List.append_assoc], ⟨a, rfl⟩, hseg, Or.inl ⟨b, rfl⟩,
      fun opened => ?_⟩
    rw [headerEnd, ← List.append_assoc, idxOf?_newline hseg]
    simp only [List.take_left]
  · refine ⟨fence, rest, rfl, ⟨[], rfl⟩, hfence, Or.inr ⟨rfl, hr⟩, fun opened => ?_⟩
    have hnone : (fence ++ rest).idxOf? '\n' = none := by
      rw [List.idxOf?_eq_none_iff, List.mem_append, not_or]
      exact ⟨hfence, hr⟩
    rw [headerEnd, hnone]
    rfl

/-- A block that is found open began at a fence. -/
theorem unclosed_spec {u : Text} (h : 0 < findLastUnclosedCodeBlock u) :
    ∃ pre rest, u = pre ++ (fence ++ rest) ∧ byteLen pre = findLastUnclosedCodeBlock u ∧
      openBlock 0 none u = some (findLastUnclosedCodeBlock u) := by
  rw [findLastUnclosedCodeBlock] at h ⊢
  cases ho : openBlock 0 none u with
  | none =>
    rw [ho] at h
    exact absurd h (Nat.lt_irrefl 0)
  | some k =>
    obtain ⟨pre, rest, rfl, hlen⟩ := (openBlock_split ho).resolve_left nofun
    refine ⟨pre, rest, List.append_assoc _ _ _, ?_, rfl⟩
    rw [← hlen, Nat.zero_add]
    rfl

theorem beforeBlock_spec {s pre rest : Text} (h : s = pre ++ rest) :
    ∃ found, beforeBlock s (byteLen pre) = some found ∧
      (∀ k, found = some k → ∃ x y, s = x ++ y ∧ byteLen x = k ∧ 0 < k ∧ k ≤ byteLen pre) ∧
      (found = none → byteLen pre ≤ 20 ∧ '\n' ∉ pre.tail) := by
  have hcut := cut_text.mpr ⟨h, rfl⟩
  have hshort {x y : Text} (hx : pre = x ++ y) : s = x ++ (y ++ rest) ∧ byteLen x ≤ byteLen pre := by
    rw [h, hx, List.append_assoc, byteLen_append]
    exact ⟨rfl, Nat.le_add_right _ _⟩
  obtain ⟨hplace, hmax⟩ := findLastNewline_spec pre 200
  have he : beforeBlock s (byteLen pre) = some (if 0 < findLastNewline pre 200 then
      some (findLastNewline pre 200) else if 0 < findLastSpace pre 100 then
      some (findLastSpace pre 100) else if 20 < byteLen pre then some (byteLen pre) else none) := by
    rw [beforeBlock, hcut]
    rfl
  refine ⟨_, he, fun k hk => ?_, fun hk => ?_⟩
  · split at hk
    · rename_i hpos
      obtain ⟨x, y, hx, hlen, -⟩ := hplace.resolve_left (Nat.ne_of_gt hpos)
      obtain rfl := Option.some.inj hk
      exact ⟨x, _, (hshort hx).1, hlen, hpos, hlen ▸ (hshort hx).2⟩
    split at hk
    · rename_i hpos
      obtain ⟨x, y, hx, hlen⟩ := (findLastSpace_spec pre 100).resolve_left (Nat.ne_of_gt hpos)
      obtain rfl := Option.some.inj hk
      exact ⟨x, _, (hshort hx).1, hlen, hpos, hlen ▸ (hshort hx).2⟩
    split at hk
    · rename_i hpos
      obtain rfl := Option.some.inj hk
      exact ⟨pre, rest, h, rfl, by omega, Nat.le_refl _⟩
    · cases hk
  · split at hk
    · cases hk
    rename_i hline
    split at hk
    · cases hk
    split at hk
    · cases hk
    rename_i hlen
    refine ⟨by omega, fun hmem => ?_⟩
    cases pre with
    | nil => exact List.not_mem_nil hmem
    | cons c pre =>
      obtain ⟨x, y, hx⟩ := List.append_of_mem hmem
      have hle := hmax (c :: x) y (congrArg (List.cons c) hx) (by omega)
      have hc := c.utf8Size_pos
      have hcons : byteLen (c :: x) = c.utf8Size + byteLen x := rfl
      omega

/-- The cut of a round that does not take the whole text. -/
structure Begun (maxLen : Nat) (s : Text) (stop : Nat) (u v : Text) (cut : Cut) : Prop where
  long : maxLen < byteLen s
  placed : naturalEnd maxLen s = some stop
  natural : Natural maxLen s stop u v
  choice : chooseCut maxLen s = some cut
  chosen : Chosen maxLen s stop u v cut

theorem chooseCut_spec {s : Text} {maxLen : Nat} (hm : 64 ≤ maxLen) (hs : maxLen < byteLen s) :
    ∃ stop u v cut, Begun maxLen s stop u v cut := by
  obtain ⟨stop, u, v, hend, hnat⟩ := naturalEnd_spec hm hs
  suffices hchosen : ∃ cut, chooseCut maxLen s = some cut ∧ Chosen maxLen s stop u v cut by
    obtain ⟨cut, hcut, hway⟩ := hchosen
    exact ⟨stop, u, v, cut, hs, hend, hnat, hcut, hway⟩
  obtain ⟨-, hlow, hhigh⟩ := effectiveLimit_spec hm hs
  have hle := hnat.le
  have hcand := cut_text.mpr ⟨hnat.split, hnat.len⟩
  simp only [chooseCut, hend, hcand, Option.bind_eq_bind, Option.bind_some]
  by_cases hopen : findLastUnclosedCodeBlock u = 0
  · rw [if_neg (by omega)]
    exact ⟨_, rfl, .natural hopen⟩
  have hpos := Nat.pos_of_ne_zero hopen
  rw [if_pos ⟨hpos, by omega⟩]
  by_cases hclose : 0 < findNextClosingCodeBlock s stop ∧ findNextClosingCodeBlock s stop ≤ maxLen
  · rw [if_pos hclose]
    exact ⟨_, rfl, .extended _ hpos rfl hclose.1 hclose.2⟩
  rw [if_neg hclose]
  obtain ⟨pre, more, rfl, hpre, -⟩ := unclosed_spec hpos
  rw [← hpre] at hpos ⊢
  have hsplit : s = pre ++ (fence ++ (more ++ v)) := by
    rw [hnat.split, List.append_assoc, List.append_assoc]
  obtain ⟨seg, post, hrest, hseg, hline, hafter, hheader⟩ := header_spec (more ++ v)
  have hfar : byteLen (pre ++ fence) ≤ stop := by
    rw [← hnat.len, ← List.append_assoc, byteLen_append (pre ++ fence)]
    exact Nat.le_add_right _ _
  have hne : pre ≠ [] := by
    rintro rfl
    exact Nat.lt_irrefl 0 hpos
  obtain ⟨⟨head, tail, hinner, hinnerLen⟩, hlimit, hnear⟩ :=
    @usableCut_spec s (maxLen - 5) (by omega) (by omega)
  have hblock := cut_text.mpr ⟨hsplit, rfl⟩
  have hhead := cut_text.mpr ⟨hinner, hinnerLen⟩
  simp only [hblock, hhead, Option.bind_some, hheader]
  have hno : findNextClosingCodeBlock s stop = 0 ∨ maxLen < findNextClosingCodeBlock s stop := by
    omega
  have hinside {k : Nat} (hcut : ∃ u v, s = u ++ v ∧ byteLen u = k) (hk : k + 5 ≤ maxLen)
      (hstop : stop ≤ k) (hout : byteLen (pre ++ seg) < k ∨ '\n' ∉ pre.tail ∧
        byteLen (pre ++ fence) < k) :
      Chosen maxLen s stop (pre ++ (fence ++ more)) v
        (.inside k (byteLen pre) (byteLen pre + byteLen seg)) := by
    rw [hpre]
    exact .inside k _ pre seg post (hpre ▸ hpos) hno hstop
      ⟨by rw [hsplit, hrest], hpre, by rw [byteLen_append, hpre], hne, hseg, hline, hafter, hcut, hk,
        by rwa [← hpre, ← byteLen_append]⟩
  by_cases hshort : byteLen pre + byteLen seg + 20 < stop
  · rw [if_pos hshort]
    obtain ⟨hplace, hmax⟩ := findLastNewline_spec head 200
    have hseglen := byteLen_append pre seg
    by_cases hbetter : byteLen pre + byteLen seg < findLastNewline head 200
    · rw [if_pos hbetter]
      obtain ⟨x, y, hx, hxlen, hwindow⟩ := hplace.resolve_left (by omega)
      have hxs : s = x ++ '\n' :: (y ++ tail) := by
        rw [hinner, hx, List.append_assoc]
        rfl
      have hxle : byteLen x ≤ byteLen head := by
        rw [hx, byteLen_append]
        exact Nat.le_add_right _ _
      refine ⟨_, rfl, hinside ⟨x, _, hxs, hxlen⟩ (by omega) ?_ (Or.inl (by omega))⟩
      cases hnat.lines with
      | inl hv =>
        -- the natural cut is the end of a line, so that the better one does not come before it
        obtain ⟨w, rfl⟩ := hv
        by_contra hlt
        obtain ⟨z, hz, -⟩ := before_cut (hinner.symm.trans hnat.split) (by rw [hnat.len]; omega)
        have hle' := hmax _ z hz (by rw [hnat.len]; omega)
        rw [hnat.len] at hle'
        omega
      | inr hlines =>
        have heff := hlines x _ hxs (by omega) (by omega)
        omega
    · rw [if_neg hbetter]
      exact ⟨_, rfl, hinside ⟨head, tail, hinner, hinnerLen⟩ (by omega) (by omega)
        (Or.inl (by omega))⟩
  · rw [if_neg hshort]
    obtain ⟨found, hfound, hbefore, hnone⟩ := beforeBlock_spec hsplit
    rw [hfound, Option.bind_some]
    cases found with
    | some k =>
      obtain ⟨x, y, hx, hlen, hk, hle'⟩ := hbefore k rfl
      refine ⟨_, rfl, .before k x y (hpre ▸ hpos) hx hlen hk ?_⟩
      rw [byteLen_append] at hfar
      omega
    | none =>
      obtain ⟨hlen, htail⟩ := hnone rfl
      refine ⟨_, rfl, hinside ⟨head, tail, hinner, hinnerLen⟩ (by omega) (by omega)
        (Or.inr ⟨htail, ?_⟩)⟩
      rw [byteLen_append]
      have hfence : byteLen fence = 3 := by decide
      omega

end NemesisBot.Message
