import NemesisBot.Utils.Sanitize

/-! A second pass over sanitised segments, and how far the hash keeps their names apart. -/
namespace NemesisBot.Sanitize
open Strings

def segmentOk (out : Text) (c : Char) : Bool :=
  isAsciiAlphanumeric c || c = '-' || c = '_' ||
    (c = '.' && (out.getLast?.map isAsciiAlphanumeric).getD false)

theorem segmentChars_concat (raw : Text) (c : Char) : segmentChars (raw ++ [c]) =
    segmentChars raw ++ [if segmentOk (segmentChars raw) c then c else '_'] := by
  rw [segmentChars, List.foldl_append, ← segmentChars, List.foldl_cons, List.foldl_nil]
  rfl

theorem length_segmentChars (raw : Text) : (segmentChars raw).length = raw.length := by
  induction raw using List.reverseRecOn with
  | nil => rfl
  | append_singleton raw c ih => simp [segmentChars_concat, ih]

theorem segmentChars_segmentChars (raw : Text) :
    segmentChars (segmentChars raw) = segmentChars raw := by
  induction raw using List.reverseRecOn with
  | nil => rfl
  | append_singleton raw c ih =>
    rw [segmentChars_concat raw c, segmentChars_concat, ih]
    by_cases hok : segmentOk (segmentChars raw) c = true
    · rw [if_pos hok, if_pos hok]
    · rw [if_neg hok, if_pos (by simp [segmentOk])]

theorem segmentChars_append_prefix (p q : Text) : segmentChars p <+: segmentChars (p ++ q) := by
  induction q using List.reverseRecOn with
  | nil => simp
  | append_singleton q c ih =>
    rw [← List.append_assoc, segmentChars_concat]
    exact ih.trans (List.prefix_append _ _)

/-- The filter looks behind only, so a prefix of what it keeps is kept. -/
theorem segmentChars_of_prefix {p s : Text} (hs : segmentChars s = s) (hp : p <+: s) :
    segmentChars p = p := by
  obtain ⟨q, rfl⟩ := hp
  have hpre := segmentChars_append_prefix p q
  rw [hs] at hpre
  exact List.IsPrefix.eq_of_length_le
    (List.prefix_of_prefix_length_le hpre (List.prefix_append p q) (length_segmentChars p).le)
    (length_segmentChars p).ge

/-- Characters that are kept wherever they stand. -/
def isPlain (c : Char) : Bool := isAsciiAlphanumeric c || c = '-' || c = '_'

theorem segmentOk_of_isPlain {c : Char} (out : Text) (h : isPlain c = true) :
    segmentOk out c = true := by
  rw [segmentOk, Bool.or_eq_true]
  exact .inl h

theorem segmentChars_append_plain (p : Text) {q : Text} (hq : ∀ c ∈ q, isPlain c = true) :
    segmentChars (p ++ q) = segmentChars p ++ q := by
  induction q using List.reverseRecOn with
  | nil => simp
  | append_singleton q c ih =>
    have hc := hq c (by simp)
    rw [← List.append_assoc, segmentChars_concat, if_pos (segmentOk_of_isPlain _ hc),
      ih fun d hd => hq d (by simp [hd]), List.append_assoc]

/-- The text that is trimmed, measured against the cap and hashed. -/
def whitelisted (raw : Text) : Text :=
  if segmentChars raw = [] ∨ segmentChars raw = ".".toList ∨ segmentChars raw = "..".toList then
    segmentChars raw ++ ['_'] else segmentChars raw

theorem whitelisted_of_ne_nil {raw : Text} (h : raw ≠ []) : whitelisted raw = segmentChars raw := by
  have hhead := segmentChars_head raw
  have hne : segmentChars raw ≠ [] := fun hnil => h (by
    rw [← List.length_eq_zero_iff, ← length_segmentChars, hnil, List.length_nil])
  rw [whitelisted, if_neg]
  intro hdots
  obtain hdots | hdots | hdots := hdots
  · exact hne hdots
  · exact hhead (by rw [hdots]; rfl)
  · exact hhead (by rw [hdots]; rfl)

theorem segmentChars_whitelisted (raw : Text) :
    segmentChars (whitelisted raw) = whitelisted raw := by
  by_cases h : raw = []
  · subst h
    decide
  · rw [whitelisted_of_ne_nil h, segmentChars_segmentChars]

theorem length_whitelisted {raw : Text} (h : raw ≠ []) :
    (whitelisted raw).length = raw.length := by
  rw [whitelisted_of_ne_nil h, length_segmentChars]

theorem whitelisted_fixed {s : Text} (hne : s ≠ []) (hs : segmentChars s = s) :
    whitelisted s = s := by
  rw [whitelisted_of_ne_nil hne, hs]

def asciiBytes (s : Text) : List UInt8 := s.map fun c => UInt8.ofNat c.toNat

def hashSuffix (s : Text) : Text := "__".toList ++ hex16 (fnv1a64 (asciiBytes s)).toNat

/-- The first branch: the trimmed text is the name. -/
def Kept (raw : Text) : Prop :=
  (whitelisted raw).length ≤ 80 ∧ isHashSuffixForm (trimEndDots (whitelisted raw)) = false

instance (raw : Text) : Decidable (Kept raw) := inferInstanceAs (Decidable (_ ∧ _))

theorem sanitizePathSegment_of_kept {raw : Text} (h : Kept raw) :
    sanitizePathSegment raw = trimEndDots (whitelisted raw) := if_pos h

theorem sanitizePathSegment_of_not_kept {raw : Text} (h : ¬ Kept raw) :
    sanitizePathSegment raw = (whitelisted raw).take 60 ++ hashSuffix (whitelisted raw) :=
  (if_neg h).trans (List.append_assoc _ _ _)

theorem trimEndDots_isPrefix (s : Text) : trimEndDots s <+: s := by
  rw [trimEndDots, ← List.reverse_suffix, List.reverse_reverse]
  exact List.dropWhile_suffix _

theorem trimEndDots_getLast? (s : Text) : (trimEndDots s).getLast? ≠ some '.' := by
  rw [trimEndDots, List.getLast?_reverse]
  intro h
  have := List.head?_dropWhile_not (fun c => decide (c = '.')) s.reverse
  rw [h] at this
  cases this

theorem trimEndDots_of_getLast? {s : Text} (h : s.getLast? ≠ some '.') : trimEndDots s = s := by
  rw [trimEndDots]
  rw [← List.head?_reverse] at h
  cases hr : s.reverse with
  | nil => rw [← List.reverse_reverse s, hr]; rfl
  | cons c rest =>
    rw [hr, List.head?_cons] at h
    rw [List.dropWhile_cons_of_neg (by simpa using h), ← hr, List.reverse_reverse]

theorem hexDigit_inj : ∀ n < 16, ∀ m < 16, hexDigit n = hexDigit m → n = m := by decide

theorem isPlain_hexDigit : ∀ n < 16, isPlain (hexDigit n) = true := by decide

theorem hexDigit_isLowerHex : ∀ n < 16, (48 ≤ (hexDigit n).toNat && (hexDigit n).toNat ≤ 57 ||
    97 ≤ (hexDigit n).toNat && (hexDigit n).toNat ≤ 102) = true := by decide

theorem length_hex16 (n : Nat) : (hex16 n).length = 16 := by simp [hex16]

theorem of_mem_hex16 {n : Nat} {c : Char} (h : c ∈ hex16 n) : ∃ d < 16, hexDigit d = c := by
  obtain ⟨i, -, rfl⟩ := List.mem_map.mp h
  exact ⟨_, Nat.mod_lt _ (by decide), rfl⟩

/-- Sixteen digits determine a number below `16 ^ 16`. -/
theorem hex16_inj {n m : Nat} (hn : n < 16 ^ 16) (hm : m < 16 ^ 16) (h : hex16 n = hex16 m) :
    n = m := by
  have hdigit : ∀ i < 16, n / 16 ^ i % 16 = m / 16 ^ i % 16 := by
    intro i hi
    have hall := List.map_inj_left.mp h i (by simpa using hi)
    exact hexDigit_inj _ (Nat.mod_lt _ (by decide)) _ (Nat.mod_lt _ (by decide)) hall
  have hmod : ∀ k ≤ 16, n % 16 ^ k = m % 16 ^ k := by
    intro k hk
    induction k with
    | zero => rw [pow_zero, Nat.mod_one, Nat.mod_one]
    | succ k ih => rw [Nat.mod_pow_succ, Nat.mod_pow_succ, ih (by omega), hdigit k (by omega)]
  have h16 := hmod 16 le_rfl
  rwa [Nat.mod_eq_of_lt hn, Nat.mod_eq_of_lt hm] at h16

theorem hashSuffix_inj {s t : Text} (h : hashSuffix s = hashSuffix t) :
    fnv1a64 (asciiBytes s) = fnv1a64 (asciiBytes t) :=
  UInt64.toNat.inj (hex16_inj (UInt64.toNat_lt _) (UInt64.toNat_lt _) (List.append_cancel_left h))

theorem length_hashSuffix (s : Text) : (hashSuffix s).length = 18 := by
  rw [hashSuffix, List.length_append, length_hex16]
  rfl

theorem isPlain_of_mem_hashSuffix {s : Text} {c : Char} (h : c ∈ hashSuffix s) :
    isPlain c = true := by
  cases List.mem_append.mp h with
  | inl h =>
    obtain rfl : c = '_' := by simpa using h
    decide
  | inr h =>
    obtain ⟨d, hd, rfl⟩ := of_mem_hex16 h
    exact isPlain_hexDigit d hd

/-- What the hash branch writes has the reserved form. -/
theorem isHashSuffixForm_append {p : Text} (hp : p.length = 60) (s : Text) :
    isHashSuffixForm (p ++ hashSuffix s) = true := by
  have hdrop : (p ++ hashSuffix s).drop 60 = hashSuffix s := by rw [← hp, List.drop_left]
  have hhex : (p ++ hashSuffix s).drop 62 = hex16 (fnv1a64 (asciiBytes s)).toNat := by
    rw [show 62 = 60 + 2 from rfl, ← List.drop_drop, hdrop]
    rfl
  rw [isHashSuffixForm, hdrop, hhex, List.length_append, hp, length_hashSuffix]
  simp only [Bool.and_eq_true, decide_eq_true_eq, List.all_eq_true]
  refine ⟨⟨trivial, rfl⟩, ?_⟩
  intro c hc
  obtain ⟨d, hd, rfl⟩ := of_mem_hex16 hc
  simpa using hexDigit_isLowerHex d hd

theorem length_of_not_kept {raw : Text} (h : ¬ Kept raw) : 60 ≤ (whitelisted raw).length := by
  by_cases hcap : (whitelisted raw).length ≤ 80
  · have hform : isHashSuffixForm (trimEndDots (whitelisted raw)) = true := by
      by_contra hform
      exact h ⟨hcap, Bool.not_eq_true _ ▸ hform⟩
    rw [isHashSuffixForm, Bool.and_eq_true, Bool.and_eq_true, decide_eq_true_eq] at hform
    have hle := (trimEndDots_isPrefix (whitelisted raw)).length_le
    omega
  · omega

theorem length_head {raw : Text} (h : ¬ Kept raw) : ((whitelisted raw).take 60).length = 60 :=
  List.length_take_of_le (length_of_not_kept h)

theorem isHashSuffixForm_name (raw : Text) :
    isHashSuffixForm (sanitizePathSegment raw) = true ↔ ¬ Kept raw := by
  by_cases h : Kept raw
  · rw [sanitizePathSegment_of_kept h, h.2]
    simp [h]
  · rw [sanitizePathSegment_of_not_kept h]
    simp [h, isHashSuffixForm_append (length_head h)]

theorem segmentChars_name (raw : Text) :
    segmentChars (sanitizePathSegment raw) = sanitizePathSegment raw := by
  have hfixed := segmentChars_whitelisted raw
  by_cases h : Kept raw
  · rw [sanitizePathSegment_of_kept h]
    exact segmentChars_of_prefix hfixed (trimEndDots_isPrefix _)
  · rw [sanitizePathSegment_of_not_kept h,
      segmentChars_append_plain _ fun c => isPlain_of_mem_hashSuffix,
      segmentChars_of_prefix hfixed (List.take_prefix _ _)]

theorem whitelisted_name (raw : Text) :
    whitelisted (sanitizePathSegment raw) = sanitizePathSegment raw :=
  whitelisted_fixed (sanitizePathSegment_ne_nil raw) (segmentChars_name raw)

theorem name_getLast? (raw : Text) : (sanitizePathSegment raw).getLast? ≠ some '.' := by
  by_cases h : Kept raw
  · rw [sanitizePathSegment_of_kept h]
    exact trimEndDots_getLast? _
  · rw [sanitizePathSegment_of_not_kept h]
    intro hlast
    have hne : hashSuffix (whitelisted raw) ≠ [] := by
      rw [← List.length_pos_iff, length_hashSuffix]
      decide
    rw [List.getLast?_append_of_ne_nil _ hne] at hlast
    exact absurd (isPlain_of_mem_hashSuffix (List.mem_of_getLast? hlast)) (by decide)

theorem trimEndDots_name (raw : Text) :
    trimEndDots (sanitizePathSegment raw) = sanitizePathSegment raw :=
  trimEndDots_of_getLast? (name_getLast? raw)

theorem length_name_le (raw : Text) : (sanitizePathSegment raw).length ≤ 80 := by
  by_cases h : Kept raw
  · rw [sanitizePathSegment_of_kept h]
    exact (trimEndDots_isPrefix _).length_le.trans h.1
  · rw [sanitizePathSegment_of_not_kept h, List.length_append, length_head h, length_hashSuffix]
    decide

/-- A second pass keeps a name that is not of the reserved form. -/
theorem sanitizePathSegment_name_of_kept {raw : Text} (h : Kept raw) :
    sanitizePathSegment (sanitizePathSegment raw) = sanitizePathSegment raw := by
  have hagain : Kept (sanitizePathSegment raw) := by
    refine ⟨?_, ?_⟩
    · rw [whitelisted_name]
      exact length_name_le raw
    · rw [whitelisted_name, trimEndDots_name]
      exact Bool.not_eq_true _ ▸ fun hform => (isHashSuffixForm_name raw).mp hform h
  rw [sanitizePathSegment_of_kept hagain, whitelisted_name, trimEndDots_name]

/-- A hashed name goes into the hash branch again, with its own hash. -/
theorem sanitizePathSegment_name_of_not_kept {raw : Text} (h : ¬ Kept raw) :
    sanitizePathSegment (sanitizePathSegment raw) =
      (whitelisted raw).take 60 ++ hashSuffix (sanitizePathSegment raw) := by
  have hagain : ¬ Kept (sanitizePathSegment raw) := by
    intro hkept
    have hform := hkept.2
    rw [whitelisted_name, trimEndDots_name, (isHashSuffixForm_name raw).mpr h] at hform
    cases hform
  have htake : (sanitizePathSegment raw).take 60 = (whitelisted raw).take 60 := by
    rw [sanitizePathSegment_of_not_kept h]
    nth_rewrite 1 [← length_head h]
    rw [List.take_left]
  rw [sanitizePathSegment_of_not_kept hagain, whitelisted_name, htake]

theorem sanitizePathSegment_twice_iff (raw : Text) :
    sanitizePathSegment (sanitizePathSegment raw) = sanitizePathSegment raw ↔
      Kept raw ∨ fnv1a64 (asciiBytes (sanitizePathSegment raw)) =
        fnv1a64 (asciiBytes (whitelisted raw)) := by
  by_cases h : Kept raw
  · simp [h, sanitizePathSegment_name_of_kept h]
  · rw [sanitizePathSegment_name_of_not_kept h]
    nth_rewrite 2 [sanitizePathSegment_of_not_kept h]
    rw [List.append_cancel_left_eq]
    constructor
    · intro hsuffix
      exact .inr (hashSuffix_inj hsuffix)
    · intro hhash
      cases hhash with
      | inl hkept => exact absurd hkept h
      | inr hhash => rw [hashSuffix, hashSuffix, hhash]

theorem not_kept_of_long {raw : Text} (h : 80 < raw.length) : ¬ Kept raw := by
  intro hkept
  have hle := hkept.1
  rw [length_whitelisted (List.ne_nil_of_length_pos (by omega))] at hle
  omega

theorem length_whitelisted_le {raw : Text} (h : raw.length ≤ 80) :
    (whitelisted raw).length ≤ 80 := by
  by_cases hne : raw = []
  · subst hne
    decide
  · rwa [length_whitelisted hne]

/-- The name of a long input is told from every other by the hash, or by its form. -/
theorem name_ne_of_long {a b : Text} (ha : 80 < a.length)
    (hinj : fnv1a64 (asciiBytes (whitelisted a)) = fnv1a64 (asciiBytes (whitelisted b)) →
      whitelisted a = whitelisted b) (hne : whitelisted a ≠ whitelisted b) :
    sanitizePathSegment a ≠ sanitizePathSegment b := by
  intro heq
  have hka := not_kept_of_long ha
  have hkb : ¬ Kept b := by
    rw [← isHashSuffixForm_name, ← heq, isHashSuffixForm_name]
    exact hka
  rw [sanitizePathSegment_of_not_kept hka, sanitizePathSegment_of_not_kept hkb] at heq
  have hsuffix := List.append_inj_right heq ((length_head hka).trans (length_head hkb).symm)
  exact hne (hinj (hashSuffix_inj hsuffix))

theorem whitelisted_ne_of_cap {a b : Text} (ha : 80 < a.length) (hb : b.length ≤ 80) :
    whitelisted a ≠ whitelisted b := by
  intro h
  have hle := length_whitelisted_le hb
  rw [← h, length_whitelisted (List.ne_nil_of_length_pos (by omega))] at hle
  omega

theorem name_ne_dots (raw : Text) :
    sanitizePathSegment raw ≠ ".".toList ∧ sanitizePathSegment raw ≠ "..".toList := by
  have hhead := sanitizePathSegment_head raw
  refine ⟨?_, ?_⟩
  · intro h
    exact hhead (by rw [h]; rfl)
  · intro h
    exact hhead (by rw [h]; rfl)

theorem segment_name_safe (raw : Text) :
    (sanitizePathSegment raw ≠ [] ∧ (sanitizePathSegment raw).length ≤ 80 ∧
      (∀ c ∈ sanitizePathSegment raw, isSegmentChar c = true) ∧
      sanitizePathSegment raw ≠ ".".toList ∧ sanitizePathSegment raw ≠ "..".toList ∧
      (sanitizePathSegment raw).head? ≠ some '.' ∧
      (sanitizePathSegment raw).getLast? ≠ some '.') ∧
    (sanitizePathSegment (sanitizePathSegment raw) = sanitizePathSegment raw ↔
      Kept raw ∨ fnv1a64 (asciiBytes (sanitizePathSegment raw)) =
        fnv1a64 (asciiBytes (whitelisted raw))) ∧
    ∀ other, (fnv1a64 (asciiBytes (whitelisted raw)) = fnv1a64 (asciiBytes (whitelisted other)) →
        whitelisted raw = whitelisted other) → 80 < raw.length →
      (80 < other.length → whitelisted raw ≠ whitelisted other) →
      sanitizePathSegment raw ≠ sanitizePathSegment other := by
  obtain ⟨hdot, hdots⟩ := name_ne_dots raw
  refine ⟨⟨sanitizePathSegment_ne_nil raw, length_name_le raw, fun c => sanitizePathSegment_chars,
    hdot, hdots, sanitizePathSegment_head raw, name_getLast? raw⟩,
    sanitizePathSegment_twice_iff raw, ?_⟩
  intro other hinj hlong hdiffer
  refine name_ne_of_long hlong hinj ?_
  by_cases hother : 80 < other.length
  · exact hdiffer hother
  · exact whitelisted_ne_of_cap hlong (by omega)

/-- Two inputs over the cap that agree on their first 60 characters. -/
theorem segment_name_safe_long :
    sanitizePathSegment (List.replicate 90 'a') ≠ sanitizePathSegment (List.replicate 91 'a') :=
  (segment_name_safe (List.replicate 90 'a')).2.2 (List.replicate 91 'a')
    (fun h => absurd h (by decide +kernel)) (by decide)
    fun _ => by decide +kernel

theorem segment_name_not_kept : ¬ ∀ raw,
    sanitizePathSegment (sanitizePathSegment raw) = sanitizePathSegment raw :=
  fun h => absurd (h (List.replicate 81 'a')) (by decide +kernel)

end NemesisBot.Sanitize
