import NemesisBot.Lib.Strings

/-! Texts cut into words at blanks, and joined again. -/
namespace NemesisBot.Words
open Strings

variable {blank : Char → Bool} {sep : Char}

/-- The non-empty pieces between blanks. -/
def words (blank : Char → Bool) (s : Text) : List Text := (s.splitOnP blank).filter (· ≠ [])

/-- Without blanks and not empty. -/
def IsWord (blank : Char → Bool) (w : Text) : Prop := w ≠ [] ∧ ∀ c ∈ w, blank c = false

@[simp] theorem words_nil : words blank [] = [] := rfl

theorem words_append_cons (x y : Text) (h : blank sep) :
    words blank (x ++ sep :: y) = words blank x ++ words blank y := by
  rw [words, List.splitOnP_append_cons x y h, List.filter_append]
  rfl

theorem words_cons_blank (y : Text) (h : blank sep) : words blank (sep :: y) = words blank y :=
  words_append_cons [] y h

theorem words_of_isWord {w : Text} (h : IsWord blank w) : words blank w = [w] := by
  rw [words, List.splitOnP_eq_singleton h.2]
  simp [h.1]

theorem words_of_visible {w : Text} (h : ∀ c ∈ w, blank c = false) :
    words blank w = [w].filter (· ≠ []) := by
  rw [words, List.splitOnP_eq_singleton h]

/-- A text is a piece without blanks, or such a piece, a blank and a text. -/
theorem word_induction {P : Text → Prop} (hlast : ∀ w, (∀ c ∈ w, blank c = false) → P w)
    (hcut : ∀ w c t, (∀ d ∈ w, blank d = false) → blank c = true → P t → P (w ++ c :: t))
    (s : Text) : P s := by
  have hpre : ∀ pre, (∀ c ∈ pre, blank c = false) → P (pre ++ s) := by
    induction s with
    | nil =>
      intro pre hpre
      rw [List.append_nil]
      exact hlast pre hpre
    | cons a s ih =>
      intro pre hpre
      by_cases ha : blank a = true
      · exact hcut pre a s hpre ha (ih [] (by simp))
      · rw [List.append_cons]
        refine ih _ fun c hc => ?_
        cases List.mem_append.mp hc with
        | inl hc => exact hpre c hc
        | inr hc =>
          rw [List.mem_singleton.mp hc]
          simpa using ha
  exact hpre [] (by simp)

theorem isWord_of_mem {s w : Text} (hw : w ∈ words blank s) : IsWord blank w := by
  have hpiece : ∀ v, (∀ c ∈ v, blank c = false) → w ∈ words blank v → IsWord blank w := by
    intro v hv hw
    rw [words_of_visible hv, List.mem_filter, List.mem_singleton] at hw
    exact ⟨by simpa using hw.2, hw.1 ▸ hv⟩
  induction s using @word_induction blank with
  | hlast v hv => exact hpiece v hv hw
  | hcut v c t hv hc ih =>
    rw [words_append_cons v t hc, List.mem_append] at hw
    exact hw.elim (hpiece v hv) ih

theorem mem_of_mem_words {s w : Text} {c : Char} (hw : w ∈ words blank s) (hc : c ∈ w) :
    c ∈ s := by
  have hpiece : ∀ v, (∀ c ∈ v, blank c = false) → w ∈ words blank v → c ∈ v := by
    intro v hv hw
    rw [words_of_visible hv, List.mem_filter, List.mem_singleton] at hw
    exact hw.1 ▸ hc
  induction s using @word_induction blank with
  | hlast v hv => exact hpiece v hv hw
  | hcut v b t hv hb ih =>
    rw [words_append_cons v t hb, List.mem_append] at hw
    rw [List.mem_append, List.mem_cons]
    exact hw.imp (hpiece v hv) fun hw => .inr (ih hw)

theorem splitOnP_join {vs : List Text} (hsep : blank sep) (hne : vs ≠ [])
    (h : ∀ v ∈ vs, ∀ c ∈ v, blank c = false) : (join [sep] vs).splitOnP blank = vs := by
  induction vs with
  | nil => exact absurd rfl hne
  | cons v vs ih =>
    have hv := h v List.mem_cons_self
    cases vs with
    | nil => exact List.splitOnP_eq_singleton hv
    | cons w vs =>
      have hrest := ih (List.cons_ne_nil w vs) fun u hu => h u (List.mem_cons_of_mem v hu)
      rw [join_cons (List.cons_ne_nil w vs), List.append_assoc, List.singleton_append,
        List.splitOnP_append_cons_of_forall_mem hv sep hsep, hrest]

/-- Pieces without blanks can be read off the text that joins them. -/
theorem join_inj {vs ws : List Text} (hsep : blank sep) (hv : vs ≠ []) (hw : ws ≠ [])
    (hvs : ∀ v ∈ vs, ∀ c ∈ v, blank c = false) (hws : ∀ w ∈ ws, ∀ c ∈ w, blank c = false)
    (h : join [sep] vs = join [sep] ws) : vs = ws := by
  rw [← splitOnP_join hsep hv hvs, h, splitOnP_join hsep hw hws]

theorem words_join {vs : List Text} (hsep : blank sep)
    (h : ∀ v ∈ vs, ∀ c ∈ v, blank c = false) :
    words blank (join [sep] vs) = vs.filter (· ≠ []) := by
  cases vs with
  | nil => rfl
  | cons v vs => rw [words, splitOnP_join hsep (List.cons_ne_nil v vs) h]

theorem words_join_words {ws : List Text} (hsep : blank sep) (h : ∀ w ∈ ws, IsWord blank w) :
    words blank (join [sep] ws) = ws := by
  rw [words_join hsep fun w hw => (h w hw).2, List.filter_eq_self]
  intro w hw
  simpa using (h w hw).1

/-- What goes piece by piece at the separator goes piece by piece through a joined text. -/
theorem map_join {f : Text → Text} (hnil : f [] = [])
    (hf : ∀ x y, f (x ++ sep :: y) = f x ++ sep :: f y) (ws : List Text) :
    f (join [sep] ws) = join [sep] (ws.map f) := by
  induction ws with
  | nil => exact hnil
  | cons w ws ih =>
    cases ws with
    | nil => rfl
    | cons v ws =>
      have hmap : (v :: ws).map f ≠ [] := by simp
      rw [join_cons (List.cons_ne_nil v ws), List.map_cons, join_cons hmap, ← ih,
        List.append_assoc, List.append_assoc]
      exact hf w (join [sep] (v :: ws))

theorem join_append {vs ws : List Text} (hv : vs ≠ []) (hw : ws ≠ []) (s : Text) :
    join s (vs ++ ws) = join s vs ++ s ++ join s ws := by
  induction vs with
  | nil => exact absurd rfl hv
  | cons v vs ih =>
    cases vs with
    | nil => rw [List.singleton_append, join_cons hw, join]
    | cons u vs =>
      rw [List.cons_append, join_cons (by simp), ih (by simp), join_cons (List.cons_ne_nil u vs)]
      simp only [List.append_assoc]

end NemesisBot.Words
