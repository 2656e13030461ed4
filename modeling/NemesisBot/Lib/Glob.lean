import NemesisBot.Lib.Strings

/-! Anchored patterns made of single characters and of runs that avoid one character. -/
namespace NemesisBot.Glob
open NemesisBot.Strings

/-- `many stop` is any run of characters other than `stop`. -/
inductive Piece where
  | lit (c : Char)
  | many (stop : Char)
  deriving DecidableEq, Repr

/-- Some run of characters other than `stop`, followed by a text that `tail` accepts. -/
def afterRun (stop : Char) (tail : Text → Bool) : Text → Bool
  | [] => tail []
  | c :: rest => tail (c :: rest) || (c != stop && afterRun stop tail rest)

/-- The whole text matches the pieces. -/
def globMatch : List Piece → Text → Bool
  | [], s => s.isEmpty
  | .lit c :: ps, s => match s with
    | [] => false
    | d :: rest => c == d && globMatch ps rest
  | .many stop :: ps, s => afterRun stop (globMatch ps) s

/-- `match_glob`: the text starts with the first part of the pattern, ends with the last one,
and has the others in between, in order. -/
def matchGlob (pattern s : Text) : Bool :=
  match pattern.splitOn '*' with
  | [] => false
  | [part] => part == s
  | first :: rest =>
    let last := rest.getLastD []
    decide (first <+: s) && decide (byteLen first + byteLen last ≤ byteLen s) &&
      decide (last <:+ s) &&
      containsAll rest.dropLast ((s.drop first.length).take (s.length - first.length - last.length))

theorem afterRun_iff {stop : Char} {tail : Text → Bool} {s : Text} :
    afterRun stop tail s = true ↔ ∃ w t, s = w ++ t ∧ stop ∉ w ∧ tail t = true := by
  induction s with
  | nil =>
    rw [afterRun]
    constructor
    · exact fun h => ⟨[], [], rfl, List.not_mem_nil, h⟩
    · rintro ⟨w, t, hs, -, ht⟩
      rwa [(List.append_eq_nil_iff.mp hs.symm).2] at ht
  | cons c rest ih =>
    rw [afterRun, Bool.or_eq_true, Bool.and_eq_true, ih, bne_iff_ne]
    constructor
    · rintro (h | ⟨hc, w, t, rfl, hw, ht⟩)
      · exact ⟨[], c :: rest, rfl, List.not_mem_nil, h⟩
      · exact ⟨c :: w, t, rfl, fun hm => (List.mem_cons.mp hm).elim (fun he => hc he.symm) hw, ht⟩
    · rintro ⟨w, t, hs, hw, ht⟩
      cases w with
      | nil => exact Or.inl (hs ▸ ht)
      | cons d w =>
        obtain ⟨rfl, rfl⟩ := List.cons_eq_cons.mp hs
        exact Or.inr ⟨fun he => hw (he ▸ List.mem_cons_self), w, t, rfl,
          fun hm => hw (List.mem_cons_of_mem c hm), ht⟩

/-- The text is the pattern with each star replaced by some text. -/
inductive Fills : Text → Text → Prop
  | nil : Fills [] []
  | lit {c : Char} {p s : Text} (hc : c ≠ '*') (h : Fills p s) : Fills (c :: p) (c :: s)
  | star (w : Text) {p s : Text} (h : Fills p s) : Fills ('*' :: p) (w ++ s)

/-- The text is the parts, one after the other, with some text between neighbours. -/
def Spaced : List Text → Text → Prop
  | [], _ => False
  | [part], s => s = part
  | part :: next :: rest, s => ∃ w t, s = part ++ (w ++ t) ∧ Spaced (next :: rest) t

/-- The parts stand in the text in order, without overlap. -/
def InOrder : List Text → Text → Prop
  | [], _ => True
  | part :: parts, s => ∃ w t, s = w ++ (part ++ t) ∧ InOrder parts t

theorem spaced_cons_head {c : Char} {part s : Text} {rest : List Text} :
    Spaced ((c :: part) :: rest) s ↔ ∃ t, s = c :: t ∧ Spaced (part :: rest) t := by
  cases rest with
  | nil => simp [Spaced]
  | cons next rest =>
    constructor
    · rintro ⟨w, t, rfl, ht⟩
      exact ⟨part ++ (w ++ t), rfl, w, t, rfl, ht⟩
    · rintro ⟨_, rfl, w, t, rfl, ht⟩
      exact ⟨w, t, rfl, ht⟩

theorem spaced_nil_head {s : Text} {rest : List Text} (h : rest ≠ []) :
    Spaced ([] :: rest) s ↔ ∃ w t, s = w ++ t ∧ Spaced rest t := by
  cases rest with
  | nil => exact absurd rfl h
  | cons next rest => simp [Spaced]

theorem fills_iff_spaced (p s : Text) : Fills p s ↔ Spaced (p.splitOn '*') s := by
  induction p generalizing s with
  | nil =>
    constructor
    · rintro ⟨⟩
      simp [Spaced]
    · intro h
      obtain rfl : s = [] := by simpa [Spaced] using h
      exact .nil
  | cons c p ih =>
    have hne : p.splitOn '*' ≠ [] := List.splitOn_ne_nil '*' p
    by_cases hc : c = '*'
    · subst hc
      rw [List.splitOn_cons_eq_if_modifyHead, if_pos (by simp), spaced_nil_head hne]
      constructor
      · intro h
        cases h with
        | lit hc _ => exact absurd rfl hc
        | star w h => exact ⟨w, _, rfl, (ih _).mp h⟩
      · rintro ⟨w, t, rfl, ht⟩
        exact .star w ((ih t).mpr ht)
    · obtain ⟨part, rest, hsplit⟩ := List.exists_cons_of_ne_nil hne
      rw [List.splitOn_cons_eq_if_modifyHead, if_neg (by simpa using hc), hsplit,
        List.modifyHead_cons, spaced_cons_head, ← hsplit]
      constructor
      · intro h
        cases h with
        | lit _ h => exact ⟨_, rfl, (ih _).mp h⟩
        | star w h => exact absurd rfl hc
      · rintro ⟨t, rfl, ht⟩
        exact .lit hc ((ih t).mpr ht)

/-- Between the first part and the last one the others stand in order. -/
theorem spaced_iff_inOrder {first s : Text} {rest : List Text} (h : rest ≠ []) :
    Spaced (first :: rest) s ↔
      ∃ mid, s = first ++ (mid ++ rest.getLastD []) ∧ InOrder rest.dropLast mid := by
  induction rest generalizing first s with
  | nil => exact absurd rfl h
  | cons next rest ih =>
    cases rest with
    | nil => simp [Spaced, InOrder]
    | cons after rest =>
      have hlast : (next :: after :: rest).getLastD [] = (after :: rest).getLastD [] := rfl
      have hinit : (next :: after :: rest).dropLast = next :: (after :: rest).dropLast := rfl
      rw [hlast, hinit]
      constructor
      · rintro ⟨w, t, rfl, ht⟩
        obtain ⟨mid, rfl, hmid⟩ := (ih (by simp)).mp ht
        exact ⟨w ++ (next ++ mid), by simp, w, mid, rfl, hmid⟩
      · rintro ⟨_, rfl, w, mid, rfl, hmid⟩
        exact ⟨w, next ++ (mid ++ (after :: rest).getLastD []), by simp,
          (ih (by simp)).mpr ⟨mid, rfl, hmid⟩⟩

theorem InOrder.mono {parts : List Text} {s t : Text} (h : InOrder parts s) (hs : s <:+ t) :
    InOrder parts t := by
  cases parts with
  | nil => trivial
  | cons part parts =>
    obtain ⟨w, u, rfl, hu⟩ := h
    obtain ⟨v, rfl⟩ := hs
    exact ⟨v ++ w, u, by simp, hu⟩

/-- The leftmost occurrence leaves the most behind it, so taking it loses no match. -/
theorem containsAll_iff_inOrder (parts : List Text) (s : Text) :
    containsAll parts s = true ↔ InOrder parts s := by
  induction parts generalizing s with
  | nil => simp [containsAll, InOrder]
  | cons part parts ih =>
    rw [containsAll]
    cases hfirst : afterFirst part s with
    | none =>
      refine iff_of_false Bool.false_ne_true ?_
      rintro ⟨w, t, rfl, _⟩
      obtain ⟨r, hr, -⟩ := afterFirst_leftmost w part t
      rw [hfirst] at hr
      cases hr
    | some r =>
      rw [ih]
      constructor
      · intro hr
        obtain ⟨w, rfl⟩ := afterFirst_eq_some hfirst
        exact ⟨w, r, rfl, hr⟩
      · rintro ⟨w, t, rfl, ht⟩
        obtain ⟨r', hr', hsuf⟩ := afterFirst_leftmost w part t
        obtain rfl : r = r' := Option.some.inj (hfirst.symm.trans hr')
        exact ht.mono hsuf

/-- A prefix and a suffix whose bytes fit into the text do not overlap. -/
theorem ends_of_byteLen {first last s : Text} (hfirst : first <+: s) (hlast : last <:+ s)
    (hlen : byteLen first + byteLen last ≤ byteLen s) : ∃ mid, s = first ++ (mid ++ last) := by
  obtain ⟨u, rfl⟩ := hfirst
  rw [byteLen_append] at hlen
  obtain h | ⟨v, hv⟩ := List.suffix_or_suffix_of_suffix hlast (List.suffix_append first u)
  · obtain ⟨mid, rfl⟩ := h
    exact ⟨mid, rfl⟩
  · have hbytes : byteLen last = byteLen v + byteLen u := by rw [← hv, byteLen_append]
    obtain rfl : v = [] := byteLen_eq_zero (by omega)
    exact ⟨[], by simpa using hv⟩

theorem matchGlob_cons {pattern first s : Text} {rest : List Text}
    (hsplit : pattern.splitOn '*' = first :: rest) (h : rest ≠ []) :
    matchGlob pattern s = true ↔
      ∃ mid, s = first ++ (mid ++ rest.getLastD []) ∧ containsAll rest.dropLast mid := by
  cases rest with
  | nil => exact absurd rfl h
  | cons next rest =>
    have hmid (mid last : Text) : ((first ++ (mid ++ last)).drop first.length).take
        ((first ++ (mid ++ last)).length - first.length - last.length) = mid := by
      rw [List.drop_left, List.take_left']
      simp only [List.length_append]
      omega
    rw [matchGlob, hsplit]
    simp only [Bool.and_eq_true, decide_eq_true_eq]
    constructor
    · rintro ⟨⟨⟨hfirst, hlen⟩, hlast⟩, hall⟩
      obtain ⟨mid, hs⟩ := ends_of_byteLen hfirst hlast hlen
      rw [hs, hmid] at hall
      exact ⟨mid, hs, hall⟩
    · rintro ⟨mid, rfl, hall⟩
      refine ⟨⟨⟨List.prefix_append _ _, ?_⟩, ?_⟩, by rwa [hmid]⟩
      · simp only [byteLen_append]
        omega
      · rw [← List.append_assoc]
        exact List.suffix_append _ _

example : matchGlob "workflow.*".toList "workflow.completed".toList = true := by decide
example : matchGlob "a*a".toList "a".toList = false := by decide

end NemesisBot.Glob
