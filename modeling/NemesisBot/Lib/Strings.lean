import Mathlib

/-! Text as a list of code points, with the string operations of the standard library
that programs over it use. -/
namespace NemesisBot.Strings

abbrev Text := List Char

instance instLawfulBEqText : LawfulBEq Text := inferInstance

/-- The Unicode property `White_Space`. -/
def isWhitespace (c : Char) : Bool :=
  let n := c.toNat
  (9 ≤ n && n ≤ 13) || n == 0x20 || n == 0x85 || n == 0xA0 || n == 0x1680 ||
    (0x2000 ≤ n && n ≤ 0x200A) || n == 0x2028 || n == 0x2029 || n == 0x202F ||
    n == 0x205F || n == 0x3000

def isAsciiAlphabetic (c : Char) : Bool :=
  let n := c.toNat
  (65 ≤ n && n ≤ 90) || (97 ≤ n && n ≤ 122)

def isAsciiAlphanumeric (c : Char) : Bool :=
  isAsciiAlphabetic c || (48 ≤ c.toNat && c.toNat ≤ 57)

def trimStart (s : Text) : Text := s.dropWhile isWhitespace

def trimEnd (s : Text) : Text := (s.reverse.dropWhile isWhitespace).reverse

def trim (s : Text) : Text := trimEnd (trimStart s)

def splitWhitespace (s : Text) : List Text := (s.splitOnP isWhitespace).filter (· ≠ [])

/-- `rest` when the text is `rest` followed by the suffix. -/
def stripSuffix (suffix s : Text) : Option Text :=
  if suffix <:+ s then some (s.take (s.length - suffix.length)) else none

/-- Takes `k` characters off as long as the front of the text is a hit, at most `fuel` times. -/
def dropFronts (hit : Text → Bool) (k : Nat) : Nat → Text → Text
  | 0, s => s
  | fuel + 1, s => if hit s then dropFronts hit k fuel (s.drop k) else s

/-- Takes the non-empty prefix off as often as it is there. -/
def trimStartMatches (pre s : Text) : Text :=
  dropFronts (fun s => pre.isPrefixOf s) pre.length s.length s

/-- The parts with the separator between them. -/
def join (sep : Text) : List Text → Text
  | [] => []
  | [s] => s
  | s :: t :: rest => s ++ sep ++ join sep (t :: rest)

def replaceFrom {α : Type*} [DecidableEq α] (old new : List α) : Nat → List α → List α
  | _, [] => []
  | 0, c :: rest =>
    if old <+: c :: rest then new ++ replaceFrom old new (old.length - 1) rest
    else c :: replaceFrom old new 0 rest
  | k + 1, _ :: rest => replaceFrom old new k rest

/-- Every occurrence of the non-empty `old`, taken left to right, becomes `new`. -/
def replaceAll {α : Type*} [DecidableEq α] (old new s : List α) : List α :=
  replaceFrom old new 0 s

/-- What follows the leftmost occurrence. -/
def afterFirst (sub : Text) : Text → Option Text
  | [] => if sub = [] then some [] else none
  | c :: rest =>
    if sub <+: c :: rest then some ((c :: rest).drop sub.length) else afterFirst sub rest

/-- The text before and after the leftmost occurrence. -/
def splitOnce (sub : Text) : Text → Option (Text × Text)
  | [] => if sub = [] then some ([], []) else none
  | c :: rest =>
    if sub <+: c :: rest then some ([], (c :: rest).drop sub.length)
    else (splitOnce sub rest).map fun parts => (c :: parts.1, parts.2)

/-- The parts occur in the text one after the other. -/
def containsAll : List Text → Text → Bool
  | [], _ => true
  | part :: parts, text => match afterFirst part text with
    | some rest => containsAll parts rest
    | none => false

def byteLen (s : Text) : Nat := (s.map Char.utf8Size).sum

/-- The text from a byte offset on, if the offset is a character boundary of it. -/
def sliceFrom : Nat → Text → Option Text
  | 0, s => some s
  | _ + 1, [] => none
  | n + 1, c :: rest => if c.utf8Size ≤ n + 1 then sliceFrom (n + 1 - c.utf8Size) rest else none

/-- Equal neighbours collapse to one. -/
def dedup {α : Type*} [DecidableEq α] : List α → List α
  | [] => []
  | [x] => [x]
  | x :: y :: rest => if x = y then dedup (y :: rest) else x :: dedup (y :: rest)

theorem stripSuffix_append (s suffix : Text) : stripSuffix suffix (s ++ suffix) = some s := by
  simp [stripSuffix]

theorem join_cons {sep s : Text} {rest : List Text} (h : rest ≠ []) :
    join sep (s :: rest) = s ++ sep ++ join sep rest := by
  cases rest with
  | nil => exact absurd rfl h
  | cons t rest => rfl

theorem join_concat {sep s : Text} {init : List Text} (h : init ≠ []) :
    join sep (init ++ [s]) = join sep init ++ sep ++ s := by
  induction init with
  | nil => exact absurd rfl h
  | cons t init ih =>
    cases init with
    | nil => rfl
    | cons u init =>
      have hi := ih (by simp)
      have hne : u :: init ++ [s] ≠ [] := by simp
      rw [List.cons_append, join_cons hne, hi, join_cons (List.cons_ne_nil u init)]
      simp only [List.append_assoc]

theorem byteLen_append (s t : Text) : byteLen (s ++ t) = byteLen s + byteLen t := by
  simp [byteLen]

theorem byteLen_eq_zero {s : Text} (h : byteLen s = 0) : s = [] := by
  cases s with
  | nil => rfl
  | cons c s =>
    have hc := Char.utf8Size_pos c
    simp only [byteLen, List.map_cons, List.sum_cons] at h
    omega

theorem sliceFrom_eq_some_iff {k : Nat} {s v : Text} :
    sliceFrom k s = some v ↔ ∃ u, s = u ++ v ∧ byteLen u = k := by
  induction s generalizing k with
  | nil =>
    cases k with
    | zero =>
      rw [sliceFrom, Option.some.injEq]
      refine ⟨fun h => ⟨[], h, rfl⟩, ?_⟩
      rintro ⟨u, h, -⟩
      exact h.trans (by rw [(List.append_eq_nil_iff.mp h.symm).1, List.nil_append])
    | succ k =>
      rw [sliceFrom]
      refine ⟨fun h => (Option.some_ne_none v h.symm).elim, ?_⟩
      rintro ⟨u, h, hu⟩
      rw [(List.append_eq_nil_iff.mp h.symm).1] at hu
      exact absurd hu (Nat.succ_ne_zero k).symm
  | cons c s ih =>
    have hc := Char.utf8Size_pos c
    cases k with
    | zero =>
      rw [sliceFrom, Option.some.injEq]
      refine ⟨fun h => ⟨[], h, rfl⟩, ?_⟩
      rintro ⟨u, h, hu⟩
      rw [h, byteLen_eq_zero hu, List.nil_append]
    | succ k =>
      rw [sliceFrom]
      constructor
      · intro h
        by_cases hle : c.utf8Size ≤ k + 1
        · rw [if_pos hle, ih] at h
          obtain ⟨u, rfl, hu⟩ := h
          refine ⟨c :: u, rfl, ?_⟩
          rw [byteLen, List.map_cons, List.sum_cons, ← byteLen]
          omega
        · rw [if_neg hle] at h
          cases h
      · rintro ⟨u, h, hu⟩
        cases u with
        | nil => exact absurd hu (Nat.succ_ne_zero k).symm
        | cons d u =>
          rw [List.cons_append, List.cons.injEq] at h
          obtain ⟨rfl, rfl⟩ := h
          rw [byteLen, List.map_cons, List.sum_cons, ← byteLen] at hu
          rw [if_pos (by omega), ih]
          exact ⟨u, rfl, by omega⟩

/-- Sorting forgets the order of the list. -/
theorem mergeSort_eq_of_perm {α : Type*} {le : α → α → Bool}
    (trans : ∀ a b c, le a b = true → le b c = true → le a c = true)
    (total : ∀ a b, (le a b || le b a) = true)
    (antisymm : ∀ a b, le a b = true → le b a = true → a = b) {l m : List α} (h : l.Perm m) :
    l.mergeSort le = m.mergeSort le :=
  List.Perm.eq_of_pairwise (fun a b _ _ => antisymm a b) (List.pairwise_mergeSort trans total l)
    (List.pairwise_mergeSort trans total m)
    ((List.mergeSort_perm l le).trans (h.trans (List.mergeSort_perm m le).symm))

theorem afterFirst_eq_some {sub s r : Text} (h : afterFirst sub s = some r) :
    ∃ w, s = w ++ (sub ++ r) := by
  induction s with
  | nil =>
    by_cases hsub : sub = []
    · rw [afterFirst, if_pos hsub, Option.some.injEq] at h
      exact ⟨[], by simp [hsub, ← h]⟩
    · rw [afterFirst, if_neg hsub] at h
      cases h
  | cons c s ih =>
    rw [afterFirst] at h
    by_cases hp : sub <+: c :: s
    · rw [if_pos hp, Option.some.injEq] at h
      obtain ⟨t, ht⟩ := hp
      rw [← ht, List.drop_left] at h
      exact ⟨[], by rw [← h]; exact ht.symm⟩
    · rw [if_neg hp] at h
      obtain ⟨w, rfl⟩ := ih h
      exact ⟨c :: w, rfl⟩

/-- Whatever follows some occurrence also ends what follows the leftmost one. -/
theorem afterFirst_leftmost (w sub t : Text) :
    ∃ r, afterFirst sub (w ++ (sub ++ t)) = some r ∧ t <:+ r := by
  induction w with
  | nil =>
    cases hs : sub ++ t with
    | nil =>
      obtain ⟨rfl, rfl⟩ := List.append_eq_nil_iff.mp hs
      exact ⟨[], rfl, List.suffix_rfl⟩
    | cons c s =>
      rw [List.nil_append, afterFirst, if_pos (hs ▸ List.prefix_append sub t), ← hs,
        List.drop_left]
      exact ⟨t, rfl, List.suffix_rfl⟩
  | cons c w ih =>
    rw [List.cons_append, afterFirst]
    by_cases hp : sub <+: c :: (w ++ (sub ++ t))
    · rw [if_pos hp]
      refine ⟨_, rfl, ?_⟩
      have hlen := List.length_drop (i := sub.length) (l := c :: (w ++ (sub ++ t)))
      have hw : t <:+ c :: (w ++ (sub ++ t)) := ⟨c :: (w ++ sub), by simp⟩
      refine List.suffix_of_suffix_length_le hw (List.drop_suffix _ _) ?_
      rw [hlen]
      simp only [List.length_cons, List.length_append]
      omega
    · rw [if_neg hp]
      exact ih

theorem splitOnce_eq_none {sub s : Text} (h : ¬ sub <:+: s) : splitOnce sub s = none := by
  induction s with
  | nil =>
    have hne : sub ≠ [] := by
      rintro rfl
      exact h List.infix_rfl
    rw [splitOnce, if_neg hne]
  | cons c s ih =>
    have hp : ¬ sub <+: c :: s := fun hp => h hp.isInfix
    rw [splitOnce, if_neg hp, ih fun hs => h (List.infix_cons hs)]
    rfl

theorem splitOnce_eq_some {sub s l r : Text} (h : splitOnce sub s = some (l, r)) :
    s = l ++ (sub ++ r) := by
  induction s generalizing l with
  | nil =>
    by_cases hsub : sub = []
    · rw [splitOnce, if_pos hsub] at h
      obtain ⟨rfl, rfl⟩ := Prod.mk.inj (Option.some.inj h)
      simp [hsub]
    · rw [splitOnce, if_neg hsub] at h
      cases h
  | cons c s ih =>
    rw [splitOnce] at h
    by_cases hp : sub <+: c :: s
    · rw [if_pos hp] at h
      obtain ⟨rfl, rfl⟩ := Prod.mk.inj (Option.some.inj h)
      obtain ⟨t, ht⟩ := hp
      rw [← ht, List.drop_left]
      rfl
    · rw [if_neg hp] at h
      obtain ⟨⟨l', r'⟩, hparts, he⟩ := Option.map_eq_some_iff.mp h
      obtain ⟨rfl, rfl⟩ := Prod.mk.inj he
      rw [ih hparts]
      rfl

/-- Whatever follows some occurrence also ends what follows the one that is split at. -/
theorem splitOnce_leftmost {sub : Text} (hsub : sub ≠ []) (w t : Text) :
    ∃ l r, splitOnce sub (w ++ (sub ++ t)) = some (l, r) ∧ t <:+ r := by
  induction w with
  | nil =>
    cases hs : sub ++ t with
    | nil => exact absurd (List.append_eq_nil_iff.mp hs).1 hsub
    | cons c s =>
      rw [List.nil_append, splitOnce, if_pos (hs ▸ List.prefix_append sub t), ← hs,
        List.drop_left]
      exact ⟨[], t, rfl, List.suffix_rfl⟩
  | cons c w ih =>
    obtain ⟨l, r, hparts, hsuf⟩ := ih
    rw [List.cons_append, splitOnce]
    by_cases hp : sub <+: c :: (w ++ (sub ++ t))
    · rw [if_pos hp]
      refine ⟨[], _, rfl, ?_⟩
      refine List.suffix_of_suffix_length_le ⟨c :: (w ++ sub), by simp⟩
        (List.drop_suffix sub.length _) ?_
      rw [List.length_drop]
      simp only [List.length_cons, List.length_append]
      omega
    · rw [if_neg hp, hparts]
      exact ⟨c :: l, r, rfl, hsuf⟩

/-- The split is where the separator stands when none begins before it. -/
theorem splitOnce_of_clear {sub w : Text} (hsub : sub ≠ [])
    (h : ¬ sub <:+: w ++ sub.dropLast) (t : Text) :
    splitOnce sub (w ++ (sub ++ t)) = some (w, t) := by
  induction w with
  | nil =>
    cases hs : sub ++ t with
    | nil => exact absurd (List.append_eq_nil_iff.mp hs).1 hsub
    | cons c s =>
      rw [List.nil_append, splitOnce, if_pos (hs ▸ List.prefix_append sub t), ← hs,
        List.drop_left]
  | cons c w ih =>
    have hp : ¬ sub <+: c :: (w ++ (sub ++ t)) := by
      intro hp
      have hin : c :: (w ++ sub.dropLast) <+: c :: (w ++ (sub ++ t)) := by
        refine List.cons_prefix_cons.mpr ⟨rfl, (List.prefix_append_right_inj w).mpr ?_⟩
        exact (List.dropLast_prefix sub).trans (List.prefix_append sub t)
      refine h (List.prefix_of_prefix_length_le hp hin ?_).isInfix
      have hpos := List.length_pos_iff.mpr hsub
      simp only [List.length_cons, List.length_append, List.length_dropLast]
      omega
    rw [List.cons_append, splitOnce, if_neg hp, ih fun hs => h (List.infix_cons hs)]
    rfl

/-- An occurrence that lacks a character lies on one side of it. -/
theorem infix_of_not_mem {sub x y : Text} {c : Char} (hc : c ∉ sub) (h : sub <:+: x ++ c :: y) :
    sub <:+: x ∨ sub <:+: y := by
  induction x with
  | nil =>
    cases List.infix_cons_iff.mp h with
    | inl hp =>
      cases sub with
      | nil => exact Or.inl (List.nil_infix)
      | cons d sub =>
        obtain ⟨rfl, -⟩ := List.cons_prefix_cons.mp hp
        exact absurd List.mem_cons_self hc
    | inr hy => exact Or.inr hy
  | cons d x ih =>
    cases List.infix_cons_iff.mp h with
    | inl hp =>
      obtain hle | ⟨v, hv⟩ := List.prefix_or_prefix_of_prefix hp
        (List.prefix_append (d :: x) (c :: y))
      · exact Or.inl hle.isInfix
      · rw [← hv] at hp
        have hvc := (List.prefix_append_right_inj (d :: x)).mp hp
        cases v with
        | nil => exact Or.inl (by rw [← hv, List.append_nil])
        | cons e v =>
          obtain ⟨rfl, -⟩ := List.cons_prefix_cons.mp hvc
          exact absurd (hv ▸ by simp) hc
    | inr hx =>
      cases ih hx with
      | inl hx => exact Or.inl (List.infix_cons hx)
      | inr hy => exact Or.inr hy

/-- An occurrence that has nothing of a prefix lies behind it. -/
theorem infix_of_disjoint {sub before s : Text} (hne : sub ≠ []) (hb : ∀ c ∈ before, c ∉ sub)
    (h : sub <:+: before ++ s) : sub <:+: s := by
  induction before with
  | nil => exact h
  | cons c before ih =>
    obtain hnil | hrest := infix_of_not_mem (x := []) (hb c List.mem_cons_self) h
    · exact absurd (List.infix_nil.mp hnil) hne
    · exact ih (fun d hd => hb d (List.mem_cons_of_mem c hd)) hrest

theorem trimStart_append_left {before : Text} (s : Text)
    (h : ∀ c ∈ before, isWhitespace c = true) : trimStart (before ++ s) = trimStart s :=
  List.dropWhile_append_of_pos h

theorem trim_surround {before after : Text} (s : Text)
    (hb : ∀ c ∈ before, isWhitespace c = true) (ha : ∀ c ∈ after, isWhitespace c = true) :
    trim (before ++ s ++ after) = trim s := by
  have hend (t : Text) : trimEnd (t ++ after) = trimEnd t := by
    rw [trimEnd, trimEnd, List.reverse_append,
      List.dropWhile_append_of_pos fun c hc => ha c (List.mem_reverse.mp hc)]
  rw [List.append_assoc, trim, trimStart_append_left _ hb, trim, trimStart, List.dropWhile_append]
  split
  · rename_i hnil
    rw [show List.dropWhile isWhitespace after = [] from List.dropWhile_eq_nil_iff.mpr ha,
      trimStart, List.isEmpty_iff.mp hnil]
  · exact hend _

theorem trimStart_of_head {c : Char} {s : Text} (h : isWhitespace c = false) :
    trimStart (c :: s) = c :: s := by
  simp [trimStart, h]

theorem trimEnd_of_last {c : Char} {s : Text} (h : isWhitespace c = false) :
    trimEnd (s ++ [c]) = s ++ [c] := by
  simp [trimEnd, h]

/-- Trimming takes white space off both ends. -/
theorem trim_split (s : Text) : ∃ before after, s = before ++ trim s ++ after ∧
    (∀ c ∈ before, isWhitespace c = true) ∧ ∀ c ∈ after, isWhitespace c = true := by
  refine ⟨s.takeWhile isWhitespace, ((trimStart s).reverse.takeWhile isWhitespace).reverse,
    ?_, List.all_eq_true.mp List.all_takeWhile, fun c hc => ?_⟩
  · have hend : trim s ++ ((trimStart s).reverse.takeWhile isWhitespace).reverse =
        trimStart s := by
      rw [trim, trimEnd, ← List.reverse_append, List.takeWhile_append_dropWhile,
        List.reverse_reverse]
    rw [List.append_assoc, hend]
    exact List.takeWhile_append_dropWhile.symm
  · exact List.all_eq_true.mp List.all_takeWhile c (List.mem_reverse.mp hc)

theorem trim_ne_nil {s : Text} {c : Char} (hc : c ∈ s) (hblank : isWhitespace c = false) :
    trim s ≠ [] := by
  intro hnil
  obtain ⟨before, after, hs, hbefore, hafter⟩ := trim_split s
  rw [hnil, List.append_nil] at hs
  rw [hs, List.mem_append] at hc
  have hwhite := hc.elim (hbefore c) (hafter c)
  rw [hblank] at hwhite
  cases hwhite

theorem trimStart_eq_nil {s : Text} (h : trim s = []) : trimStart s = [] :=
  List.dropWhile_eq_nil_iff.mpr fun c hc => by
    by_contra hws
    exact trim_ne_nil hc (Bool.eq_false_of_not_eq_true hws) h

theorem trim_isInfix (s : Text) : trim s <:+: s := by
  obtain ⟨before, after, he, -, -⟩ := trim_split s
  exact ⟨before, after, he.symm⟩

/-- Trimming keeps the characters that are no white space. -/
theorem count_trim {c : Char} (hc : isWhitespace c = false) (s : Text) :
    (trim s).count c = s.count c := by
  obtain ⟨before, after, he, hb, ha⟩ := trim_split s
  have hbc : before.count c = 0 := List.count_eq_zero.mpr fun hm => by simp [hb c hm] at hc
  have hac : after.count c = 0 := List.count_eq_zero.mpr fun hm => by simp [ha c hm] at hc
  conv_rhs => rw [he]
  simp only [List.count_append, hbc, hac]
  omega

theorem trimEnd_trimEnd (s : Text) : trimEnd (trimEnd s) = trimEnd s := by
  simp only [trimEnd, List.reverse_reverse, List.dropWhile_idempotent]

/-- What is left at the front stays when the end is trimmed. -/
theorem trimStart_trim (s : Text) : trimStart (trim s) = trim s := by
  rw [trim]
  cases h : trimStart s with
  | nil => rfl
  | cons c rest =>
    have hc : isWhitespace c = false := by
      by_contra hws
      have hagain : trimStart (trimStart s) = trimStart s :=
        List.dropWhile_idempotent isWhitespace s
      rw [h, trimStart, List.dropWhile_cons_of_pos (by simpa using hws)] at hagain
      have hlen := (List.dropWhile_suffix (l := rest) isWhitespace).length_le
      rw [hagain, List.length_cons] at hlen
      omega
    have hkeep : trimEnd (c :: rest) = c :: trimEnd rest := by
      rw [trimEnd, List.reverse_cons, List.dropWhile_append]
      split
      · rename_i hnil
        simp [trimEnd, List.isEmpty_iff.mp hnil, hc]
      · simp [trimEnd]
    rw [hkeep, trimStart_of_head hc]

theorem trim_trim (s : Text) : trim (trim s) = trim s := by
  rw [trim, trimStart_trim, trim, trimEnd_trimEnd]

theorem head_of_trim {s rest : Text} {c : Char} (h : trim s = c :: rest) :
    isWhitespace c = false := by
  by_contra hws
  have hagain := congrArg List.length (trimStart_trim s)
  rw [h, trimStart, List.dropWhile_cons_of_pos (by simpa using hws)] at hagain
  have hlen := (List.dropWhile_suffix (l := rest) isWhitespace).length_le
  rw [List.length_cons] at hagain
  omega

theorem trim_map {f : Char → Char} (hf : ∀ c, isWhitespace (f c) = isWhitespace c) (s : Text) :
    trim (s.map f) = (trim s).map f := by
  have hp : isWhitespace ∘ f = isWhitespace := funext hf
  simp only [trim, trimEnd, trimStart, List.dropWhile_map, hp, ← List.map_reverse]

theorem dropFronts_isSuffix (hit : Text → Bool) (k fuel : Nat) (s : Text) :
    dropFronts hit k fuel s <:+ s := by
  induction fuel generalizing s with
  | zero => exact List.suffix_rfl
  | succ fuel ih =>
    rw [dropFronts]
    split
    · exact (ih _).trans (List.drop_suffix k s)
    · exact List.suffix_rfl

theorem dropFronts_of_miss {hit : Text → Bool} {s : Text} (k fuel : Nat) (h : hit s = false) :
    dropFronts hit k fuel s = s := by
  cases fuel with
  | zero => rfl
  | succ fuel => rw [dropFronts, if_neg (by simp [h])]

/-- With enough fuel the front of what is left is no hit. -/
theorem dropFronts_miss {hit : Text → Bool} {k : Nat} (hk : 0 < k) (hnil : hit [] = false)
    {fuel : Nat} {s : Text} (hf : s.length ≤ fuel) : hit (dropFronts hit k fuel s) = false := by
  induction fuel generalizing s with
  | zero =>
    rw [List.length_eq_zero_iff.mp (Nat.le_zero.mp hf)]
    exact hnil
  | succ fuel ih =>
    rw [dropFronts]
    split
    · exact ih (by rw [List.length_drop]; omega)
    · rename_i hmiss
      simpa using hmiss

/-- A wider test that finds no hit in what is left takes off the same. -/
theorem dropFronts_widen {hit wide : Text → Bool} {k : Nat} (h : ∀ s, hit s → wide s)
    {fuel : Nat} {s : Text} (hmiss : wide (dropFronts hit k fuel s) = false) :
    dropFronts wide k fuel s = dropFronts hit k fuel s := by
  induction fuel generalizing s with
  | zero => rfl
  | succ fuel ih =>
    rw [dropFronts] at hmiss ⊢
    by_cases hs : hit s
    · rw [if_pos hs] at hmiss
      rw [if_pos (h s hs), dropFronts, if_pos hs]
      exact ih hmiss
    · rw [if_neg hs] at hmiss
      rw [if_neg (by simp [hmiss]), dropFronts, if_neg hs]

/-! Replacement leaves alone what cannot belong to an occurrence. -/

section Replace
variable {α : Type*} [DecidableEq α] {old new : List α}

theorem replaceAll_cons_of_ne {a c : α} {s : List α} (h : c ≠ a) :
    replaceAll (a :: old) new (c :: s) = c :: replaceAll (a :: old) new s := by
  have hp : ¬ a :: old <+: c :: s := fun hp => h (List.cons_prefix_cons.mp hp).1.symm
  rw [replaceAll, replaceFrom, if_neg hp]
  rfl

theorem replaceAll_append_left {a : α} {w s : List α} (h : ∀ c ∈ w, c ≠ a) :
    replaceAll (a :: old) new (w ++ s) = w ++ replaceAll (a :: old) new s := by
  induction w with
  | nil => rfl
  | cons c w ih =>
    rw [List.cons_append, replaceAll_cons_of_ne (h c (by simp)),
      ih fun d hd => h d (by simp [hd])]
    rfl

theorem replaceFrom_concat {a c : α} (h : c ≠ a) (s : List α) (k : Nat) (hk : k ≤ s.length) :
    replaceFrom (old ++ [a]) new k (s ++ [c]) = replaceFrom (old ++ [a]) new k s ++ [c] := by
  have hlast (t : List α) : old ++ [a] ≠ t ++ [c] := fun he =>
    h (List.append_inj_right' he rfl |> List.singleton_inj.mp).symm
  induction s generalizing k with
  | nil =>
    obtain rfl : k = 0 := by simpa using hk
    have hp : ¬ old ++ [a] <+: [c] := fun hp => by
      obtain hp | hp := List.prefix_concat_iff.mp (show old ++ [a] <+: [] ++ [c] from hp)
      · exact hlast [] hp
      · simp at hp
    simp [replaceFrom, hp]
  | cons d s ih =>
    cases k with
    | succ k => exact ih k (by simpa using hk)
    | zero =>
      have hp : old ++ [a] <+: d :: s ++ [c] ↔ old ++ [a] <+: d :: s := by
        rw [List.prefix_concat_iff]
        exact or_iff_right (hlast (d :: s))
      by_cases hd : old ++ [a] <+: d :: s
      · have hlen : (old ++ [a]).length - 1 ≤ s.length := by
          have := hd.length_le
          simp only [List.length_cons] at this
          omega
        simp only [List.cons_append, replaceFrom]
        rw [if_pos (by simpa using hp.mpr hd), if_pos hd, ih _ hlen, List.append_assoc]
      · simp only [List.cons_append, replaceFrom]
        rw [if_neg (by simpa using fun x => hd (hp.mp x)), if_neg hd, ih 0 (Nat.zero_le _)]
        rfl

theorem replaceAll_append_right {a : α} {w s : List α} (h : ∀ c ∈ w, c ≠ a) :
    replaceAll (old ++ [a]) new (s ++ w) = replaceAll (old ++ [a]) new s ++ w := by
  induction w using List.reverseRecOn with
  | nil => simp
  | append_singleton w c ih =>
    rw [← List.append_assoc, replaceAll, replaceFrom_concat (h c (by simp)) _ 0 (Nat.zero_le _),
      ← replaceAll, ih fun d hd => h d (by simp [hd]), List.append_assoc]

theorem replaceAll_of_not_infix {s : List α} (h : ¬ old <:+: s) : replaceAll old new s = s := by
  induction s with
  | nil => rfl
  | cons c s ih =>
    have hp : ¬ old <+: c :: s := fun hp => h hp.isInfix
    have hs : ¬ old <:+: s := fun hs => h (hs.trans (List.suffix_cons c s).isInfix)
    rw [replaceAll, replaceFrom, if_neg hp, ← replaceAll, ih hs]

end Replace

end NemesisBot.Strings
