import NemesisBot.Utils.MessageCuts

/-! The rounds of the splitter: the sizes of the chunks, the text they keep, and that they end. -/
namespace NemesisBot.Message
open Strings Offsets

/-- The characters of the content that are not blank. -/
def kept (r : List Token) : Text :=
  (r.filter fun t => !t.inserted && !isWhitespace t.char).map Token.char

theorem kept_append (p q : List Token) : kept (p ++ q) = kept p ++ kept q := by
  rw [kept, List.filter_append, List.map_append]
  rfl

theorem kept_original (s : Text) : kept (original s) = s.filter fun c => !isWhitespace c := by
  rw [kept, original, List.filter_map, List.map_map]
  exact List.map_id _

theorem kept_inserted (s : Text) : kept (inserted s) = [] := by
  rw [kept, inserted, List.filter_map, List.map_map]
  exact List.map_eq_nil_iff.mpr (List.filter_eq_nil_iff.mpr fun c _ => nofun)

theorem kept_dropWhile {q : Token → Bool} (hq : ∀ t, q t = true → isWhitespace t.char = true)
    (r : List Token) : kept (r.dropWhile q) = kept r := by
  induction r with
  | nil => rfl
  | cons t r ih =>
    by_cases ht : q t = true
    · rw [List.dropWhile_cons_of_pos ht, ih, kept, kept, List.filter_cons_of_neg]
      rw [hq t ht, Bool.not_true, Bool.and_false]
      exact Bool.false_ne_true
    · rw [List.dropWhile_cons_of_neg ht]

theorem kept_reverse (r : List Token) : kept r.reverse = (kept r).reverse := by
  rw [kept, List.filter_reverse, List.map_reverse]
  rfl

theorem kept_trimTokens (r : List Token) : kept (trimTokens r) = kept r := by
  rw [trimTokens, kept_reverse, kept_dropWhile fun _ h => h, kept_reverse,
    kept_dropWhile fun _ h => h, List.reverse_reverse]

theorem isWhitespace_of_blank {c : Char} (h : c ∈ [' ', '\t', '\n', '\r']) :
    isWhitespace c = true := by
  simp only [List.mem_cons, List.not_mem_nil, or_false] at h
  obtain rfl | rfl | rfl | rfl := h <;> rfl

theorem kept_trimEndBlanks (r : List Token) : kept (trimEndBlanks r) = kept r := by
  rw [trimEndBlanks, kept_reverse, kept_dropWhile
    fun t h => isWhitespace_of_blank (of_decide_eq_true h), kept_reverse, List.reverse_reverse]

theorem textOf_original (s : Text) : textOf (original s) = s := by
  rw [textOf, original, List.map_map]
  exact List.map_id s

theorem textOf_inserted (s : Text) : textOf (inserted s) = s := by
  rw [textOf, inserted, List.map_map]
  exact List.map_id s

theorem textOf_trimTokens (r : List Token) : textOf (trimTokens r) = trim (textOf r) := by
  rw [textOf, textOf, trimTokens, trim, trimEnd, trimStart, List.dropWhile_map, ← List.map_reverse,
    List.dropWhile_map, ← List.map_reverse]
  rfl

/-- Without the blanks at its end. -/
theorem trimEndBlanks_split (r : List Token) : ∃ blanks, r = trimEndBlanks r ++ blanks ∧
    ∀ c ∈ textOf blanks, c ∈ [' ', '\t', '\n', '\r'] := by
  refine ⟨(r.reverse.takeWhile fun t => t.char ∈ [' ', '\t', '\n', '\r']).reverse, ?_, fun c hc => ?_⟩
  · rw [trimEndBlanks, ← List.reverse_append, List.takeWhile_append_dropWhile, List.reverse_reverse]
  · obtain ⟨t, ht, rfl⟩ := List.mem_map.mp hc
    exact of_decide_eq_true (List.all_eq_true.mp List.all_takeWhile t (List.mem_reverse.mp ht))

/-- What a round makes of the content: its chunk and what is left. -/
inductive Rounded (maxLen : Nat) (content : List Token) : List Token → List Token → Prop
  | fits : byteLen (textOf content) ≤ maxLen → Rounded maxLen content content []
  | apart {stop k : Nat} {u v : Text} {cut : Cut} (p q : List Token) :
      Begun maxLen (textOf content) stop u v cut →
      cut = .natural k ∨ cut = .extended k ∨ cut = .before k → content = p ++ q →
      byteLen (textOf p) = k → 0 < k → k ≤ maxLen → Rounded maxLen content p (trimTokens q)
  | within {stop k e : Nat} {u v pre seg post : Text} (header p q : List Token) :
      Begun maxLen (textOf content) stop u v (.inside k (findLastUnclosedCodeBlock u) e) →
      Inside maxLen (textOf content) k (findLastUnclosedCodeBlock u) e pre seg post →
      0 < findLastUnclosedCodeBlock u →
      (findNextClosingCodeBlock (textOf content) stop = 0 ∨
        maxLen < findNextClosingCodeBlock (textOf content) stop) → stop ≤ k →
      content = p ++ q → byteLen (textOf p) = k → textOf header = seg →
      Rounded maxLen content (trimEndBlanks p ++ inserted "\n```".toList)
        (inserted (textOf (trimTokens header)) ++ inserted ['\n'] ++ trimTokens q)

theorem splitRound_apart {maxLen k : Nat} {content : List Token} {cut : Cut} {x y : Text}
    (hover : maxLen < byteLen (textOf content)) (hcut : chooseCut maxLen (textOf content) = some cut)
    (hk : cut = .natural k ∨ cut = .extended k ∨ cut = .before k) (hpos : 0 < k)
    (hsplit : textOf content = x ++ y) (hx : byteLen x = k) :
    ∃ p q, content = p ++ q ∧ byteLen (textOf p) = k ∧
      splitRound maxLen content = some (p, trimTokens q) := by
  obtain ⟨p, q, hp, rfl, rfl, rfl⟩ := cut_tokens hsplit hx
  refine ⟨p, q, rfl, hx, ?_⟩
  rw [splitRound, if_neg (by rw [← byteLen_textOf]; omega), hcut]
  obtain rfl | rfl | rfl := hk <;>
    simp only [Option.bind_eq_bind, Option.bind_some, if_neg (Nat.ne_of_gt hpos), hp]

theorem splitRound_within {maxLen k i e : Nat} {content : List Token} {pre seg post : Text}
    (hover : maxLen < byteLen (textOf content))
    (hcut : chooseCut maxLen (textOf content) = some (.inside k i e))
    (h : Inside maxLen (textOf content) k i e pre seg post) :
    ∃ header p q, content = p ++ q ∧ byteLen (textOf p) = k ∧ textOf header = seg ∧
      splitRound maxLen content = some (trimEndBlanks p ++ inserted "\n```".toList,
        inserted (textOf (trimTokens header)) ++ inserted ['\n'] ++ trimTokens q) := by
  obtain ⟨u, v, huv, hu⟩ := h.cut
  obtain ⟨p, q, hp, hpq, rfl, rfl⟩ := cut_tokens huv hu
  obtain ⟨upTo, after, hupTo, -, hup, -⟩ := cut_tokens
    (h.split.trans (List.append_assoc pre seg post).symm) h.header
  obtain ⟨before, header, hheader, -, -, hseg⟩ := cut_tokens hup h.opened
  refine ⟨header, p, q, hpq, hu, hseg, ?_⟩
  rw [splitRound, if_neg (by rw [← byteLen_textOf]; omega), hcut]
  simp only [Option.bind_eq_bind, Option.bind_some, hupTo, hheader, hp]

/-- Every round goes through. -/
theorem splitRound_spec {maxLen : Nat} (hm : 64 ≤ maxLen) (content : List Token) :
    ∃ chunk rest, splitRound maxLen content = some (chunk, rest) ∧
      Rounded maxLen content chunk rest := by
  by_cases hs : byteLen (textOf content) ≤ maxLen
  · refine ⟨content, [], ?_, .fits hs⟩
    rw [splitRound, if_pos (by rwa [← byteLen_textOf])]
  have hover := Nat.lt_of_not_le hs
  obtain ⟨-, hlow, hhigh⟩ := effectiveLimit_spec hm hover
  obtain ⟨stop, u, v, cut, hbegun⟩ := chooseCut_spec hm hover
  have hle := hbegun.natural.le
  have hpos := hbegun.natural.pos
  have hapart {k : Nat} {x y : Text} (hk : cut = .natural k ∨ cut = .extended k ∨ cut = .before k)
      (hpos : 0 < k) (hmax : k ≤ maxLen) (hsplit : textOf content = x ++ y) (hx : byteLen x = k) :
      ∃ chunk rest, splitRound maxLen content = some (chunk, rest) ∧
        Rounded maxLen content chunk rest := by
    obtain ⟨p, q, hpq, hp, hround⟩ := splitRound_apart hover hbegun.choice hk hpos hsplit hx
    exact ⟨_, _, hround, .apart p q hbegun hk hpq hp hpos hmax⟩
  cases hbegun.chosen with
  | natural _ =>
    exact hapart (Or.inl rfl) hpos (by omega) hbegun.natural.split hbegun.natural.len
  | extended k _ hclose hk hmax =>
    have hclosing := findNextClosing_eq (v := v) hbegun.natural.len
    rw [← hbegun.natural.split, hclose] at hclosing
    obtain ⟨x, y, hv, hlen⟩ := (closingFrom_split hclosing.symm).resolve_left (Nat.ne_of_gt hk)
    refine hapart (x := u ++ x) (y := y) (Or.inr (Or.inl rfl)) hk hmax ?_ ?_
    · rw [hbegun.natural.split, hv, List.append_assoc]
    · rw [byteLen_append, hbegun.natural.len, hlen]
  | before k x y _ hsplit hx hk hstop =>
    exact hapart (Or.inr (Or.inr rfl)) hk (by omega) hsplit hx
  | inside k e pre seg post hopen hno hstop hinside =>
    obtain ⟨header, p, q, hpq, hp, hheader, hround⟩ := splitRound_within hover hbegun.choice hinside
    exact ⟨_, _, hround, .within header p q hbegun hinside hopen hno hstop hpq hp hheader⟩

section
variable {maxLen : Nat} {content chunk rest : List Token}

theorem Rounded.sized (h : Rounded maxLen content chunk rest) : byteLen (textOf chunk) ≤ maxLen := by
  cases h with
  | fits h => exact h
  | apart p q _ _ _ hp _ hmax => omega
  | within header p q _ hinside _ _ _ _ hp _ =>
    obtain ⟨blanks, hblanks, -⟩ := trimEndBlanks_split p
    have hlen := hinside.le
    rw [hblanks, textOf_append, byteLen_append] at hp
    have hclose : byteLen "\n```".toList = 4 := by decide +kernel
    rw [textOf_append, textOf_inserted, byteLen_append, hclose]
    omega

theorem Rounded.kept_eq (h : Rounded maxLen content chunk rest) :
    kept chunk ++ kept rest = kept content := by
  cases h with
  | fits => exact List.append_nil _
  | apart p q _ _ hpq => rw [kept_trimTokens, hpq, kept_append]
  | within header p q _ _ _ _ _ hpq =>
    rw [kept_append, kept_append, kept_append, kept_inserted, kept_inserted, kept_inserted,
      kept_trimEndBlanks, kept_trimTokens, hpq, kept_append]
    simp only [List.append_nil, List.nil_append]

end

/-! Why the rounds end: a line weighs as much as twice the line without its first character. -/

/-- The weights of the first line and of all the others. -/
def weigh : Text → Nat × Nat
  | [] => (1, 0)
  | c :: s => if c = '\n' then (1, (weigh s).1 + (weigh s).2) else (2 * (weigh s).1, (weigh s).2)

def weight (s : Text) : Nat := (weigh s).1 + (weigh s).2

theorem weigh_pos (s : Text) : 0 < (weigh s).1 := by
  induction s with
  | nil => exact Nat.one_pos
  | cons c s ih =>
    rw [weigh]
    split
    · exact Nat.one_pos
    · exact Nat.mul_pos Nat.two_pos ih

theorem weight_lt_cons (c : Char) (s : Text) : weight s < weight (c :: s) := by
  have hpos := weigh_pos s
  rw [weight, weight, weigh]
  split <;> simp only <;> omega

theorem weight_line (a b : Text) : weight (a ++ '\n' :: b) = weight a + weight b := by
  suffices h : weigh (a ++ '\n' :: b) = ((weigh a).1, (weigh a).2 + weight b) by
    rw [weight, h]
    exact (Nat.add_assoc _ _ _).symm
  induction a with
  | nil => rw [List.nil_append, weigh, weigh, if_pos rfl, weight, Nat.zero_add]
  | cons c a ih =>
    rw [List.cons_append, weigh, weigh, ih]
    split
    · simp only [Nat.add_assoc]
    · rfl

theorem weigh_append {a : Text} (ha : '\n' ∉ a) (b : Text) :
    weigh (a ++ b) = (2 ^ a.length * (weigh b).1, (weigh b).2) := by
  induction a with
  | nil => rw [List.nil_append, List.length_nil, Nat.pow_zero, Nat.one_mul]
  | cons c a ih =>
    obtain ⟨hne, ha⟩ := List.ne_and_not_mem_of_not_mem_cons ha
    rw [List.cons_append, weigh, if_neg hne.symm, ih ha, List.length_cons, Nat.pow_succ,
      Nat.mul_comm (2 ^ _) 2, Nat.mul_assoc]

theorem weight_suffix (a b : Text) : weight b ≤ weight (a ++ b) := by
  induction a with
  | nil => exact Nat.le_refl _
  | cons c a ih => exact Nat.le_of_lt (Nat.lt_of_le_of_lt ih (weight_lt_cons c (a ++ b)))

theorem weight_le_append (a b : Text) : weight a ≤ weight (a ++ b) := by
  suffices h : (weigh a).1 ≤ (weigh (a ++ b)).1 ∧ (weigh a).2 ≤ (weigh (a ++ b)).2 from
    Nat.add_le_add h.1 h.2
  induction a with
  | nil => exact ⟨weigh_pos b, Nat.zero_le _⟩
  | cons c a ih =>
    rw [List.cons_append, weigh, weigh]
    split <;> simp only <;> omega

theorem weight_trim (s : Text) : weight (trim s) ≤ weight s := by
  obtain ⟨before, after, hs, -, -⟩ := trim_split s
  conv_rhs => rw [hs]
  exact Nat.le_trans (weight_suffix before (trim s)) (weight_le_append (before ++ trim s) after)

theorem weight_lt_append {p : Text} (hp : p ≠ []) (q : Text) : weight q < weight (p ++ q) := by
  cases p with
  | nil => exact absurd rfl hp
  | cons c p => exact Nat.lt_of_le_of_lt (weight_suffix p q) (weight_lt_cons c (p ++ q))

/-- What comes after a later cut. -/
theorem after_cut {x y p q : Text} (h : x ++ y = p ++ q) (hlt : byteLen x < byteLen p) :
    ∃ z, z ≠ [] ∧ p = x ++ z ∧ y = z ++ q := by
  obtain ⟨z, rfl, rfl⟩ | ⟨z, rfl, rfl⟩ := List.append_eq_append_iff.mp h
  · refine ⟨z, ?_, rfl, rfl⟩
    rintro rfl
    rw [List.append_nil] at hlt
    exact Nat.lt_irrefl _ hlt
  · rw [byteLen_append] at hlt
    omega

/-- What comes after a cut that is not later. -/
theorem upto_cut {x y p q : Text} (h : x ++ y = p ++ q) (hle : byteLen p ≤ byteLen x) :
    ∃ z, x = p ++ z ∧ q = z ++ y := by
  obtain ⟨z, rfl, rfl⟩ | ⟨z, rfl, rfl⟩ := List.append_eq_append_iff.mp h
  · rw [byteLen_append] at hle
    obtain rfl : z = [] := byteLen_eq_zero (by omega)
    exact ⟨[], by rw [List.append_nil, List.append_nil], rfl⟩
  · exact ⟨z, rfl, rfl⟩

/-- A cut inside a block takes more away than it repeats. -/
theorem Inside.weight_lt {maxLen k i e : Nat} {s pre seg post p q : Text}
    (h : Inside maxLen s k i e pre seg post) (hs : s.head? ≠ some '\n') (hpq : s = p ++ q)
    (hp : byteLen p = k) : weight (trim seg ++ '\n' :: trim q) < weight s := by
  have hseg := weight_trim seg
  have hq := weight_trim q
  rw [weight_line]
  refine Nat.lt_of_le_of_lt (Nat.add_le_add hseg hq) ?_
  have hsplit := h.split.symm.trans hpq
  have hlight := weight_lt_append h.ne seg
  obtain ⟨more, hmore⟩ := h.begins
  by_cases hheader : byteLen (pre ++ seg) < k
  · obtain ⟨z, hz, -, hpost⟩ := after_cut ((List.append_assoc pre seg post).trans hsplit)
      (by rwa [hp])
    cases h.after with
    | inl hnext =>
      -- the header is a line of its own, and more than the line end comes before the cut
      obtain ⟨next, rfl⟩ := hnext
      cases z with
      | nil => exact absurd rfl hz
      | cons d z =>
        have hnext : next = z ++ q := (List.cons.inj hpost).2
        have hrest := weight_suffix z q
        rw [h.split, ← List.append_assoc, weight_line, hnext]
        omega
    | inr hlast =>
      obtain ⟨hfence, hline⟩ := hlast
      rw [hpost, List.mem_append, not_or] at hline
      have hclear : '\n' ∉ seg ++ z := by
        rw [List.mem_append, not_or]
        exact ⟨h.line, hline.1⟩
      have hs := weight_lt_append h.ne (seg ++ z ++ q)
      rw [weight, weigh_append hclear, List.length_append, hfence] at hs
      have hlen := List.length_pos_of_ne_nil hz
      have hpow : 2 ^ 4 ≤ 2 ^ (fence.length + z.length) :=
        Nat.pow_le_pow_right Nat.two_pos (Nat.add_le_add_left hlen 3)
      have hmul := Nat.mul_le_mul_right (weigh q).1 hpow
      have hpos := weigh_pos q
      have height : weight fence = 8 := by decide
      rw [h.split, hpost, ← List.append_assoc seg, hfence, height]
      simp only [weight] at hs ⊢
      omega
  · obtain ⟨hpre, hfar⟩ := h.far.resolve_left (by rwa [← h.header])
    obtain ⟨y, hseg', hq'⟩ := upto_cut ((List.append_assoc pre seg post).trans hsplit)
      (by rw [hp]; omega)
    rw [hmore, ← List.append_assoc] at hseg'
    obtain ⟨z, hz, -, hmore'⟩ := after_cut hseg' (by rwa [hp])
    have hnext : ∃ next, post = '\n' :: next := by
      refine h.after.resolve_right fun hlast => hz ?_
      have hnil : more = [] := List.append_cancel_left (hmore.symm.trans hlast.1)
      rw [hnil] at hmore'
      exact (List.append_eq_nil_iff.mp hmore'.symm).1
    obtain ⟨next, rfl⟩ := hnext
    have hclear : '\n' ∉ pre := by
      cases pre with
      | nil => exact List.not_mem_nil
      | cons c pre =>
        rw [h.split] at hs
        rw [List.mem_cons, not_or]
        exact ⟨fun hc => hs (congrArg some hc.symm), hpre⟩
    have hone := weigh_append h.line []
    rw [List.append_nil] at hone
    have hsmall : weight y < weight seg := by
      rw [hmore, hmore', ← List.append_assoc]
      exact weight_lt_append (List.append_ne_nil_of_left_ne_nil (List.cons_ne_nil _ _) z) y
    have hpow : 2 ^ 1 ≤ 2 ^ pre.length :=
      Nat.pow_le_pow_right Nat.two_pos (List.length_pos_of_ne_nil h.ne)
    have hmul := Nat.mul_le_mul_right (weigh seg).1 hpow
    rw [h.split, ← List.append_assoc, weight_line, hq', weight_line]
    have htwice : 2 * weight seg ≤ weight (pre ++ seg) := by
      rw [weight, weight, weigh_append hclear]
      rw [hone] at hmul ⊢
      exact hmul
    omega

theorem head_trim_ne (s : Text) : (trim s).head? ≠ some '\n' := by
  intro hhead
  obtain ⟨rest, hrest⟩ := List.head?_eq_some_iff.mp hhead
  exact Bool.false_ne_true (head_of_trim hrest).symm

/-- What is left does not begin with the end of a line. -/
theorem Rounded.head {maxLen : Nat} {content chunk rest : List Token}
    (h : Rounded maxLen content chunk rest) : (textOf rest).head? ≠ some '\n' := by
  cases h with
  | fits => exact nofun
  | apart p q =>
    rw [textOf_trimTokens]
    exact head_trim_ne (textOf q)
  | within header p q _ hinside _ _ _ _ _ hheader =>
    obtain ⟨more, hmore⟩ := hinside.begins
    rw [textOf_append, textOf_append, textOf_inserted, textOf_inserted, textOf_trimTokens]
    have hne : trim (textOf header) ≠ [] := by
      rw [hheader, hmore]
      exact trim_ne_nil (List.mem_append_left more (List.mem_cons_self)) (by decide)
    rw [List.append_assoc, List.head?_append_of_ne_nil _ hne]
    exact head_trim_ne (textOf header)

theorem Rounded.weight_lt {maxLen : Nat} {content chunk rest : List Token}
    (h : Rounded maxLen content chunk rest) (hs : (textOf content).head? ≠ some '\n') :
    rest = [] ∨ weight (textOf rest) < weight (textOf content) := by
  cases h with
  | fits => exact Or.inl rfl
  | apart p q _ _ hpq hp hpos =>
    right
    rw [textOf_trimTokens, hpq, textOf_append]
    refine Nat.lt_of_le_of_lt (weight_trim _) (weight_lt_append ?_ _)
    intro hnil
    rw [hnil] at hp
    exact Nat.ne_of_lt hpos hp
  | within header p q _ hinside _ _ _ hpq hp hheader =>
    right
    rw [textOf_append, textOf_append, textOf_inserted, textOf_inserted, textOf_trimTokens,
      textOf_trimTokens, hheader, List.append_assoc]
    exact hinside.weight_lt hs (by rw [hpq, textOf_append]) hp

/-! The whole run. -/

theorem splitRounds_nil (maxLen fuel : Nat) : splitRounds maxLen fuel [] = some [] := by
  cases fuel <;> rfl

theorem splitRounds_cons {maxLen fuel : Nat} {content chunk rest : List Token}
    {more : List (List Token × List Token)} (hne : content ≠ [])
    (hround : splitRound maxLen content = some (chunk, rest))
    (hmore : splitRounds maxLen fuel rest = some more) :
    splitRounds maxLen (fuel + 1) content = some ((content, chunk) :: more) := by
  cases content with
  | nil => exact absurd rfl hne
  | cons t content =>
    rw [splitRounds, hround]
    simp only [Option.bind_eq_bind, Option.bind_some, hmore]

theorem splitRounds_light {maxLen : Nat} (hm : 64 ≤ maxLen) (n : Nat) (content : List Token)
    (hlight : weight (textOf content) ≤ n) (hs : (textOf content).head? ≠ some '\n') :
    ∃ trace, ∀ fuel, n ≤ fuel → splitRounds maxLen fuel content = some trace := by
  induction n generalizing content with
  | zero =>
    have hpos := weigh_pos (textOf content)
    rw [weight] at hlight
    omega
  | succ n ih =>
    by_cases hne : content = []
    · rw [hne]
      exact ⟨[], fun fuel _ => splitRounds_nil maxLen fuel⟩
    obtain ⟨chunk, rest, hround, hrounded⟩ := splitRound_spec hm content
    have hrest : ∃ more, ∀ fuel, n ≤ fuel → splitRounds maxLen fuel rest = some more := by
      cases hrounded.weight_lt hs with
      | inl hnil =>
        rw [hnil]
        exact ⟨[], fun fuel _ => splitRounds_nil maxLen fuel⟩
      | inr hlt => exact ih rest (by omega) hrounded.head
    obtain ⟨more, hmore⟩ := hrest
    refine ⟨(content, chunk) :: more, fun fuel hfuel => ?_⟩
    obtain ⟨fuel, rfl⟩ := Nat.exists_eq_add_of_le' hfuel
    exact splitRounds_cons hne hround (hmore _ (Nat.le_add_left n fuel))

/-- The rounds end, and none of them fails. -/
theorem splitRounds_terminate {maxLen : Nat} (hm : 64 ≤ maxLen) (content : List Token) :
    ∃ enough trace, ∀ fuel, enough ≤ fuel → splitRounds maxLen fuel content = some trace := by
  by_cases hne : content = []
  · rw [hne]
    exact ⟨0, [], fun fuel _ => splitRounds_nil maxLen fuel⟩
  obtain ⟨chunk, rest, hround, hrounded⟩ := splitRound_spec hm content
  -- only the first content may begin with the end of a line
  obtain ⟨more, hmore⟩ := splitRounds_light hm _ rest (Nat.le_refl _) hrounded.head
  refine ⟨weight (textOf rest) + 1, (content, chunk) :: more, fun fuel hfuel => ?_⟩
  obtain ⟨fuel, rfl⟩ := Nat.exists_eq_add_of_le' hfuel
  exact splitRounds_cons hne hround (hmore _ (Nat.le_add_left _ fuel))

/-- What holds of every round of a run. -/
theorem splitRounds_rounded {maxLen : Nat} (hm : 64 ≤ maxLen) {fuel : Nat} {content : List Token}
    {trace : List (List Token × List Token)} (h : splitRounds maxLen fuel content = some trace) :
    (∀ r ∈ trace, ∃ rest, Rounded maxLen r.1 r.2 rest) ∧
      kept (trace.flatMap Prod.snd) = kept content := by
  induction fuel generalizing content trace with
  | zero =>
    cases content with
    | nil =>
      obtain rfl := Option.some.inj h
      exact ⟨nofun, rfl⟩
    | cons t content => cases h
  | succ fuel ih =>
    cases content with
    | nil =>
      obtain rfl := Option.some.inj h
      exact ⟨nofun, rfl⟩
    | cons t content =>
      obtain ⟨chunk, rest, hround, hrounded⟩ := splitRound_spec hm (t :: content)
      rw [splitRounds, hround] at h
      change (splitRounds maxLen fuel rest).bind _ = some trace at h
      obtain ⟨more, hmore, he⟩ := Option.bind_eq_some_iff.mp h
      obtain rfl := Option.some.inj he
      obtain ⟨hrest, hkept⟩ := ih hmore
      refine ⟨List.forall_mem_cons.mpr ⟨⟨rest, hrounded⟩, hrest⟩, ?_⟩
      rw [List.flatMap_cons, kept_append, hkept, hrounded.kept_eq]

end NemesisBot.Message
