import NemesisBot.Workflow.TemplateOrder

/-! What `evaluate_condition` makes of references: when its nested calls end, and when a value
pasted into a comparison is compared as it is. -/
namespace NemesisBot.Engine
open Strings Substitute

/-- The negations at the front of an expression, with white space between them. -/
def bangs : Text → Nat
  | [] => 0
  | c :: rest => if c = '!' then bangs rest + 1 else if isWhitespace c then bangs rest else 0

theorem bangs_append_left {before : Text} (s : Text) (h : ∀ c ∈ before, isWhitespace c = true) :
    bangs (before ++ s) = bangs s := by
  induction before with
  | nil => rfl
  | cons c before ih =>
    have hc : isWhitespace c = true := h c List.mem_cons_self
    have hne : c ≠ '!' := by
      rintro rfl
      exact absurd hc (by decide)
    rw [List.cons_append, bangs, if_neg hne, if_pos hc]
    exact ih fun d hd => h d (List.mem_cons_of_mem c hd)

theorem bangs_append_right {after : Text} (s : Text) (h : ∀ c ∈ after, isWhitespace c = true) :
    bangs (s ++ after) = bangs s := by
  induction s with
  | nil =>
    have hb := bangs_append_left [] h
    rwa [List.append_nil] at hb
  | cons c s ih => simp only [List.cons_append, bangs, ih]

theorem bangs_surround {before after : Text} (s : Text)
    (hb : ∀ c ∈ before, isWhitespace c = true) (ha : ∀ c ∈ after, isWhitespace c = true) :
    bangs (before ++ s ++ after) = bangs s := by
  rw [bangs_append_right _ ha, bangs_append_left _ hb]

theorem bangs_trim (s : Text) : bangs (trim s) = bangs s := by
  obtain ⟨before, after, he, hb, ha⟩ := trim_split s
  have hs := bangs_surround (trim s) hb ha
  rwa [← he, eq_comm] at hs

/-- Nothing that resolving replaces starts at a negation. -/
theorem resolve_bang (order : Arrangement) (t : Text) (context : Fields) :
    resolvePromptTemplate order ('!' :: t) context =
      '!' :: resolvePromptTemplate order t context := by
  simp only [resolvePromptTemplate]
  induction order.arrange context generalizing t with
  | nil => rfl
  | cons entry rest ih =>
    have hopen : placeholder entry.1 = '\x7b' :: ('\x7b' :: entry.1 ++ closing) := by
      simp [placeholder, opening]
    rw [List.foldl_cons, hopen, replaceAll_cons_of_ne (by decide), ih, List.foldl_cons, hopen]

section Returns
variable (host : Host) (order : Arrangement) (context : Fields)

/-- One pass over a text. -/
def resolvePass (t : Text) : Text := resolvePromptTemplate order t context

/-- Later passes leave what stands around the rest of a negated expression. -/
theorem passes_negated {before after : Text} (hb : ∀ c ∈ before, isWhitespace c = true)
    (ha : ∀ c ∈ after, isWhitespace c = true) (n : Nat) (rest : Text) :
    (resolvePass order context)^[n] (before ++ '!' :: rest ++ after) =
      before ++ '!' :: (resolvePass order context)^[n] rest ++ after := by
  induction n generalizing rest with
  | zero => rfl
  | succ n ih =>
    simp only [Function.iterate_succ_apply]
    rw [resolvePass, resolve_surround order _ context hb ha, resolve_bang, ih]
    rfl

/-- With `fuel` nested calls at hand the evaluation ends when some pass among the first `fuel`
has no more negations at the front than there were passes before it. -/
theorem evaluateCondition_isSome_iff (fuel : Nat) (s : Text) :
    (evaluateCondition host order context fuel s).isSome ↔
      ∃ n < fuel, bangs ((resolvePass order context)^[n + 1] s) ≤ n := by
  induction fuel generalizing s with
  | zero => simp [evaluateCondition]
  | succ fuel ih =>
    obtain ⟨before, after, he, hb, ha⟩ := trim_split s
    have hpass : resolvePass order context s =
        before ++ resolvePromptTemplate order (trim s) context ++ after := by
      rw [resolvePass]
      nth_rewrite 1 [he]
      exact resolve_surround order (trim s) context hb ha
    have hfirst : bangs (resolvePass order context s) =
        bangs (trim (resolvePromptTemplate order (trim s) context)) := by
      rw [hpass, bangs_surround _ hb ha, bangs_trim]
    rw [evaluateCondition]
    by_cases hempty : trim s = []
    · rw [if_pos hempty]
      refine iff_of_true rfl ⟨0, Nat.succ_pos fuel, ?_⟩
      have hno : ¬ opening <:+: ([] : Text) := fun h => by simpa [opening] using h.length_le
      rw [Function.iterate_one, hfirst, hempty, resolve_of_not_opening hno]
      exact Nat.le_refl 0
    · rw [if_neg hempty]
      split
      · rename_i rest hrest
        obtain ⟨before', after', he', hb', ha'⟩ :=
          trim_split (resolvePromptTemplate order (trim s) context)
        have hlater (n : Nat) : bangs ((resolvePass order context)^[n + 1] s) =
            bangs ((resolvePass order context)^[n] rest) + 1 := by
          have hspace : ∀ c ∈ before ++ before', isWhitespace c = true := fun c hc =>
            (List.mem_append.mp hc).elim (hb c) (hb' c)
          have hspace' : ∀ c ∈ after' ++ after, isWhitespace c = true := fun c hc =>
            (List.mem_append.mp hc).elim (ha' c) (ha c)
          have hshape : resolvePass order context s =
              before ++ before' ++ '!' :: rest ++ (after' ++ after) := by
            rw [hpass, he', hrest]
            simp only [List.append_assoc]
          rw [Function.iterate_succ_apply, hshape, passes_negated order context hspace hspace',
            bangs_surround _ hspace hspace', bangs, if_pos rfl]
        rw [Option.isSome_map, ih]
        constructor
        · rintro ⟨n, hn, hle⟩
          refine ⟨n + 1, by omega, ?_⟩
          rw [hlater]
          omega
        · rintro ⟨n, hn, hle⟩
          rw [hlater] at hle
          cases n with
          | zero => omega
          | succ n => exact ⟨n, by omega, by omega⟩
      · rename_i hnone
        refine iff_of_true rfl ⟨0, Nat.succ_pos fuel, ?_⟩
        rw [Function.iterate_one, hfirst]
        cases hr : trim (resolvePromptTemplate order (trim s) context) with
        | nil => exact Nat.le_refl 0
        | cons c rest =>
          have hc : c ≠ '!' := by
            rintro rfl
            exact hnone rest hr
          rw [bangs, if_neg hc, if_neg (by simp [head_of_trim hr])]

/-- The nested calls end exactly when the negations at the front do not outgrow the passes
over the condition. -/
theorem evaluateCondition_returns_iff (s : Text) :
    (∃ fuel, (evaluateCondition host order context fuel s).isSome) ↔
      ∃ n, bangs ((resolvePass order context)^[n + 1] s) ≤ n := by
  simp only [evaluateCondition_isSome_iff]
  constructor
  · rintro ⟨_, n, _, hle⟩
    exact ⟨n, hle⟩
  · rintro ⟨n, hle⟩
    exact ⟨n + 1, n, Nat.lt_succ_self n, hle⟩

/-- They end when the passes reach a text that they leave alone. -/
theorem evaluateCondition_returns_of_fixed {s : Text} {k : Nat}
    (h : (resolvePass order context)^[k + 1] s = (resolvePass order context)^[k] s) :
    ∃ fuel, (evaluateCondition host order context fuel s).isSome := by
  have hstays (m : Nat) : (resolvePass order context)^[k + m] s =
      (resolvePass order context)^[k] s := by
    induction m with
    | zero => rfl
    | succ m ih =>
      rw [← Nat.add_assoc, Function.iterate_succ_apply', ih,
        ← Function.iterate_succ_apply' (resolvePass order context), h]
  refine (evaluateCondition_returns_iff host order context s).mpr
    ⟨k + bangs ((resolvePass order context)^[k] s), ?_⟩
  rw [Nat.add_assoc, hstays]
  exact Nat.le_add_left _ k

/-- So they do when no value has as many braces as its placeholder opens with. -/
theorem evaluateCondition_returns_of_braces
    (h : ∀ entry ∈ context,
      (replacementText entry.2).count '\x7b' < (placeholder entry.1).count '\x7b') (s : Text) :
    ∃ fuel, (evaluateCondition host order context fuel s).isSome := by
  have hpass (t : Text) : resolvePass order context t = t ∨
      (resolvePass order context t).count '\x7b' < t.count '\x7b' := by
    rw [resolvePass, resolve_eq_applyAll]
    refine count_applyAll (fun r hr => ?_) t
    obtain ⟨entry, hentry, rfl⟩ := List.mem_map.mp hr
    exact h entry ((order.perm context).mem_iff.mp hentry)
  have hfixed : ∃ k, (resolvePass order context)^[k + 1] s = (resolvePass order context)^[k] s := by
    induction hn : s.count '\x7b' using Nat.strong_induction_on generalizing s with
    | _ n ih =>
      obtain he | hless := hpass s
      · exact ⟨0, he⟩
      · obtain ⟨k, hk⟩ := ih _ (hn ▸ hless) (resolvePass order context s) rfl
        exact ⟨k + 1, hk⟩
  obtain ⟨k, hk⟩ := hfixed
  exact evaluateCondition_returns_of_fixed host order context hk

end Returns

/-- A value that negates itself. -/
theorem evaluateCondition_selfNegated (host : Host) (fuel : Nat) :
    evaluateCondition host .stored [("a".toList, .str "!\x7b\x7ba\x7d\x7d".toList)] fuel
      "\x7b\x7ba\x7d\x7d".toList = none := by
  induction fuel with
  | zero => rfl
  | succ fuel ih =>
    have hresolved : trim (resolvePromptTemplate .stored (trim "\x7b\x7ba\x7d\x7d".toList)
        [("a".toList, .str "!\x7b\x7ba\x7d\x7d".toList)]) =
          '!' :: "\x7b\x7ba\x7d\x7d".toList := by decide
    rw [evaluateCondition, if_neg (by decide), hresolved]
    simp only [ih, Option.map_none]

/-- No number of nested calls ends its evaluation. -/
theorem evaluateCondition_diverges :
    ¬ ∃ (host : Host) (fuel : Nat),
      (evaluateCondition host .stored [("a".toList, .str "!\x7b\x7ba\x7d\x7d".toList)] fuel
        "\x7b\x7ba\x7d\x7d".toList).isSome := by
  rintro ⟨host, fuel, h⟩
  rw [evaluateCondition_selfNegated] at h
  cases h

end NemesisBot.Engine
