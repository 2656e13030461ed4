import NemesisBot.Lib.Words
import NemesisBot.Security.Matcher

/-! The form to which commands are normalised before rules are matched, and when it is a
canonical one. -/
namespace NemesisBot.Matcher
open NemesisBot.Strings NemesisBot.Command NemesisBot.Words

def Unquoted (s : Text) : Prop := ∀ c ∈ s, isQuote c = false

instance (s : Text) : Decidable (Unquoted s) := inferInstanceAs (Decidable (∀ c ∈ s, _))

/-- Lower casing goes word by word. -/
structure Platform.Spaced (p : Platform) : Prop where
  lower_nil : p.toLowercase [] = []
  lower_blank : ∀ s t, p.toLowercase (s ++ ' ' :: t) = p.toLowercase s ++ ' ' :: p.toLowercase t

/-- Folding makes no quotes, and lower casing makes neither quotes nor blanks. -/
structure Platform.Lawful (p : Platform) : Prop extends Platform.Spaced p where
  nfkc_quote : ∀ s, Unquoted s → Unquoted (p.nfkc s)
  lower_word : ∀ w, IsWord isWhitespace w → IsWord isWhitespace (p.toLowercase w)
  lower_quote : ∀ s, Unquoted s → Unquoted (p.toLowercase s)

def unquote (s : Text) : Text := s.filter fun c => !isQuote c

variable (p : Platform)

/-- The words of the folded command, quotes included. -/
def execWords (c : Text) : List Text := splitWhitespace (p.nfkc c)

/-- The words that are left when the quotes are gone. -/
def plainWords (c : Text) : List Text := splitWhitespace (unquote (p.nfkc c))

theorem unquoted_unquote (s : Text) : Unquoted (unquote s) := fun c hc => by
  simpa using (List.mem_filter.mp hc).2

theorem unquote_eq_self {s : Text} (h : Unquoted s) : unquote s = s :=
  List.filter_eq_self.mpr fun c hc => by simp [h c hc]

theorem unquote_append_cons {c : Char} (hc : isQuote c = false) (s t : Text) :
    unquote (s ++ c :: t) = unquote s ++ c :: unquote t := by
  simp [unquote, hc]

theorem unquote_join (ws : List Text) : unquote (join space ws) = join space (ws.map unquote) :=
  map_join rfl (unquote_append_cons (by decide)) ws

theorem words_unquote (s : Text) :
    splitWhitespace (unquote s) = ((splitWhitespace s).map unquote).filter (· ≠ []) := by
  change words isWhitespace (unquote s) =
    ((words isWhitespace s).map unquote).filter (· ≠ [])
  have hpiece : ∀ v : Text, (∀ c ∈ v, isWhitespace c = false) →
      words isWhitespace (unquote v) = ((words isWhitespace v).map unquote).filter (· ≠ []) := by
    intro v hv
    have hu : ∀ c ∈ unquote v, isWhitespace c = false := fun c hc =>
      hv c (List.mem_of_mem_filter hc)
    rw [words_of_visible hu, words_of_visible hv]
    by_cases hnil : v = []
    · subst hnil
      rfl
    · simp [hnil]
  induction s using @word_induction isWhitespace with
  | hlast v hv => exact hpiece v hv
  | hcut v c t hv hc ih =>
    have hq : isQuote c = false := by
      by_contra hq
      simp only [isQuote, Bool.not_eq_false, Bool.or_eq_true, beq_iff_eq] at hq
      obtain (rfl | rfl) | rfl := hq <;> exact absurd hc (by decide)
    rw [unquote_append_cons hq, words_append_cons _ _ hc, words_append_cons _ _ hc, ih, hpiece v hv,
      List.map_append, List.filter_append]

theorem plainWords_eq (c : Text) :
    plainWords p c = ((execWords p c).map unquote).filter (· ≠ []) := words_unquote (p.nfkc c)

theorem isWord_execWords {c w : Text} (h : w ∈ execWords p c) : IsWord isWhitespace w :=
  isWord_of_mem h

theorem isWord_plainWords {c w : Text} (h : w ∈ plainWords p c) : IsWord isWhitespace w :=
  isWord_of_mem h

theorem blank_space : isWhitespace ' ' = true := by decide

variable {p}

theorem lower_join (hp : p.Spaced) (ws : List Text) :
    p.toLowercase (join space ws) = join space (ws.map p.toLowercase) :=
  map_join hp.lower_nil hp.lower_blank ws

theorem normalize_eq (hp : p.Spaced) (c : Text) : normalizeExecCommand p c =
    join space (((execWords p c).map unquote).map p.toLowercase) := by
  rw [← lower_join hp, ← unquote_join]
  rfl

section Lawful
variable (hp : p.Lawful)
include hp

theorem visible_lower {w : Text} (h : ∀ c ∈ w, isWhitespace c = false) :
    ∀ c ∈ p.toLowercase w, isWhitespace c = false := by
  by_cases hw : w = []
  · rw [hw, hp.lower_nil]
    simp
  · exact (hp.lower_word w ⟨hw, h⟩).2

theorem lower_eq_nil_iff {w : Text} (h : ∀ c ∈ w, isWhitespace c = false) :
    p.toLowercase w = [] ↔ w = [] := by
  constructor
  · intro he
    by_contra hw
    exact (hp.lower_word w ⟨hw, h⟩).1 he
  · rintro rfl
    exact hp.lower_nil

omit hp in
theorem visible_bare {c v : Text} (h : v ∈ (execWords p c).map unquote) :
    ∀ ch ∈ v, isWhitespace ch = false := by
  obtain ⟨w, hw, rfl⟩ := List.mem_map.mp h
  exact fun ch hch => (isWord_execWords p hw).2 ch (List.mem_of_mem_filter hch)

theorem visible_normalized {c v : Text}
    (h : v ∈ ((execWords p c).map unquote).map p.toLowercase) :
    ∀ ch ∈ v, isWhitespace ch = false := by
  obtain ⟨w, hw, rfl⟩ := List.mem_map.mp h
  exact visible_lower hp (visible_bare hw)

/-- The words of the normalised command, whatever its spacing. -/
theorem words_normalize (c : Text) :
    splitWhitespace (normalizeExecCommand p c) = (plainWords p c).map p.toLowercase := by
  rw [normalize_eq hp.toSpaced, plainWords_eq]
  change words isWhitespace _ = _
  rw [space, words_join blank_space fun v hv => visible_normalized hp hv]
  rw [List.filter_map]
  refine congrArg (List.map p.toLowercase) (List.filter_congr fun v hv => ?_)
  simp [lower_eq_nil_iff hp (visible_bare hv)]

/-- Either no word is made of quotes only, or there is at most one word. -/
def WordsKept (p : Platform) (c : Text) : Prop :=
  (execWords p c).length ≤ 1 ∨ ∀ w ∈ execWords p c, unquote w ≠ []

/-- Words with one blank between them and none at the ends. -/
def SingleSpaced (s : Text) : Prop :=
  ∃ ws, (∀ w ∈ ws, IsWord isWhitespace w) ∧ s = join space ws

theorem singleSpaced_iff (c : Text) : SingleSpaced (normalizeExecCommand p c) ↔ WordsKept p c := by
  rw [normalize_eq hp.toSpaced]
  constructor
  · rintro ⟨ws, hws, h⟩
    by_contra hkept
    obtain ⟨hlen, hall⟩ := not_or.mp hkept
    push Not at hlen hall
    obtain ⟨w, hw, hnil⟩ := hall
    have hlong : (((execWords p c).map unquote).map p.toLowercase).length ≠ 1 := by
      simp only [List.length_map]
      omega
    have hne : ((execWords p c).map unquote).map p.toLowercase ≠ [] := by
      rw [ne_eq, ← List.length_eq_zero_iff, List.length_map, List.length_map]
      omega
    have hmem : [] ∈ ((execWords p c).map unquote).map p.toLowercase := by
      refine List.mem_map.mpr ⟨[], List.mem_map.mpr ⟨w, hw, hnil⟩, hp.lower_nil⟩
    cases ws with
    | nil =>
      have hone := join_inj blank_space hne (List.cons_ne_nil [] [])
        (fun v hv => visible_normalized hp hv) (by simp) h
      exact hlong (by rw [hone]; rfl)
    | cons v ws =>
      have heq := join_inj blank_space hne (List.cons_ne_nil v ws)
        (fun v hv => visible_normalized hp hv) (fun u hu => (hws u hu).2) h
      rw [heq] at hmem
      exact (hws [] hmem).1 rfl
  · intro hkept
    by_cases hall : ∀ w ∈ execWords p c, unquote w ≠ []
    · refine ⟨_, fun v hv => ?_, rfl⟩
      obtain ⟨u, hu, rfl⟩ := List.mem_map.mp hv
      refine hp.lower_word u ⟨?_, visible_bare hu⟩
      obtain ⟨w, hw, rfl⟩ := List.mem_map.mp hu
      exact hall w hw
    · -- the only word is made of quotes
      push Not at hall
      obtain ⟨w, hw, hnil⟩ := hall
      have hone : execWords p c = [w] := by
        have hlen := hkept.resolve_right fun h => h w hw hnil
        obtain ⟨v, hv⟩ := List.length_eq_one_iff.mp
          (le_antisymm hlen (List.length_pos_of_mem hw))
        rw [hv] at hw ⊢
        rw [List.mem_singleton.mp hw]
      refine ⟨[], by simp, ?_⟩
      rw [hone, List.map_singleton, List.map_singleton, hnil, hp.lower_nil]
      rfl

/-- A canonical command is its plain words in lower case, with single blanks. -/
theorem normalize_of_kept {c : Text} (h : WordsKept p c) :
    normalizeExecCommand p c = join space ((plainWords p c).map p.toLowercase) := by
  obtain ⟨ws, hws, he⟩ := (singleSpaced_iff hp c).mpr h
  have hwords := words_normalize hp c
  rw [he] at hwords
  change words isWhitespace _ = _ at hwords
  rw [space, words_join_words blank_space hws] at hwords
  rw [he, hwords]

theorem unquoted_normalize (c : Text) : Unquoted (normalizeExecCommand p c) :=
  hp.lower_quote _ (unquoted_unquote _)

end Lawful

variable (p)

/-- Folding the lower-cased words once more gives the same words. -/
def Settled (c : Text) : Prop :=
  (splitWhitespace (p.nfkc (p.toLowercase (join space (plainWords p c))))).map p.toLowercase =
    (plainWords p c).map p.toLowercase

instance Settled.decidable (c : Text) : Decidable (Settled p c) := inferInstanceAs (Decidable (_ = _))

structure IsCanonical (c : Text) : Prop where
  unquoted : Unquoted (normalizeExecCommand p c)
  spaced : SingleSpaced (normalizeExecCommand p c)
  fixed : normalizeExecCommand p (normalizeExecCommand p c) = normalizeExecCommand p c

variable {p}

theorem execWords_of_unquoted (hp : p.Lawful) {s : Text} (h : Unquoted s) :
    (execWords p s).map unquote = execWords p s := by
  rw [List.map_congr_left fun w hw => ?_, List.map_id]
  exact unquote_eq_self fun c hc => hp.nfkc_quote s h c (mem_of_mem_words hw hc)

theorem fixed_iff (hp : p.Lawful) {c : Text} (h : WordsKept p c) :
    normalizeExecCommand p (normalizeExecCommand p c) = normalizeExecCommand p c ↔
      Settled p c := by
  have hu := execWords_of_unquoted hp (unquoted_normalize hp c)
  have hn := normalize_of_kept hp h
  rw [normalize_eq hp.toSpaced (normalizeExecCommand p c), hu, hn]
  have hfolded : ∀ w ∈ (execWords p (join space ((plainWords p c).map p.toLowercase))).map
      p.toLowercase, IsWord isWhitespace w := by
    intro w hw
    obtain ⟨v, hv, rfl⟩ := List.mem_map.mp hw
    exact hp.lower_word v (isWord_execWords p hv)
  have hplain : ∀ w ∈ (plainWords p c).map p.toLowercase, IsWord isWhitespace w := by
    intro w hw
    obtain ⟨v, hv, rfl⟩ := List.mem_map.mp hw
    exact hp.lower_word v (isWord_plainWords p hv)
  rw [Settled, lower_join hp.toSpaced]
  constructor
  · intro he
    have hwords := congrArg (words isWhitespace) he
    exact (words_join_words blank_space hfolded).symm.trans
      (hwords.trans (words_join_words blank_space hplain))
  · exact congrArg (join space)

theorem toNat_toLower (c : Char) :
    c.toLower = c ∨ (65 ≤ c.toNat ∧ c.toNat ≤ 90 ∧ c.toLower.toNat = c.toNat + 32) := by
  unfold Char.toLower
  split
  · rename_i h
    have hlow : 65 ≤ c.toNat := UInt32.le_iff_toNat_le.mp h.1
    have hhigh : c.toNat ≤ 90 := UInt32.le_iff_toNat_le.mp h.2
    refine .inr ⟨hlow, hhigh, ?_⟩
    change (c.val + 32).toNat = c.val.toNat + 32
    rw [UInt32.toNat_add]
    change (c.toNat + 32) % 2 ^ 32 = c.toNat + 32
    omega
  · exact .inl rfl

theorem isWhitespace_toLower (c : Char) : isWhitespace c.toLower = isWhitespace c := by
  obtain h | ⟨hlow, hhigh, h⟩ := toNat_toLower c
  · rw [h]
  · have hsmall : ∀ n : Nat, 65 ≤ n → n ≤ 122 → ∀ d : Char, d.toNat = n →
        isWhitespace d = false := by
      intro n hn hn' d hd
      simp only [isWhitespace, hd, Bool.or_eq_false_iff, Bool.and_eq_false_iff,
        decide_eq_false_iff_not, beq_eq_false_iff_ne]
      omega
    rw [hsmall _ (by omega) (by omega) c.toLower h, hsmall _ hlow (by omega) c rfl]

theorem isQuote_toLower (c : Char) : isQuote c.toLower = isQuote c := by
  obtain h | ⟨hlow, hhigh, h⟩ := toNat_toLower c
  · rw [h]
  · have hno : ∀ d : Char, 65 ≤ d.toNat → d.toNat ≤ 122 → d.toNat ≠ 96 → isQuote d = false := by
      intro d hd hd' hne
      simp only [isQuote, Bool.or_eq_false_iff, beq_eq_false_iff_ne]
      refine ⟨⟨?_, ?_⟩, ?_⟩ <;> rintro rfl
      · exact absurd hd (by decide)
      · exact absurd hd (by decide)
      · exact hne (by decide)
    rw [hno c.toLower (by omega) (by omega) (by omega), hno c hlow (by omega) (by omega)]

/-- Text that needs no folding, lowered letter by letter. -/
def plainPlatform : Platform := ⟨id, List.map Char.toLower, false⟩

theorem lawful_plain : plainPlatform.Lawful where
  nfkc_quote _ h := h
  lower_nil := rfl
  lower_blank s t := by
    have hspace : ' '.toLower = ' ' := by decide
    simp [plainPlatform, hspace]
  lower_word w h := by
    refine ⟨by simpa [plainPlatform] using h.1, fun c hc => ?_⟩
    obtain ⟨d, hd, rfl⟩ := List.mem_map.mp hc
    rw [isWhitespace_toLower, h.2 d hd]
  lower_quote s h c hc := by
    obtain ⟨d, hd, rfl⟩ := List.mem_map.mp hc
    rw [isQuote_toLower, h d hd]

def spelledRm : Text := " RM  \"-r\"f 'a b' ".toList

end NemesisBot.Matcher
