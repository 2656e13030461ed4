import NemesisBot.Workflow.ConditionEvaluation

/-! A reference compared with a literal. The value of the reference is pasted in before the
condition is read, so it takes part in the reading. -/
namespace NemesisBot.Engine
open Strings

/-- The finite numbers have only these characters. -/
def NumeralsOnly (host : Host) : Prop :=
  ∀ s f, host.parse s = some f → ∀ c ∈ s, c ∈ "0123456789+-.eE".toList

/-- Has no meaning in a condition. -/
def isLiteralChar (c : Char) : Bool :=
  !isWhitespace c && !"\x7b\x7d!<>=\"'".toList.contains c

/-- The operator and the literal, behind the operand on the left. -/
def comparedWith (op : Operator) (literal : Text) : Text := ' ' :: (op.text ++ ' ' :: literal)

/-- `{{key}} op literal` -/
def comparison (key : Text) (op : Operator) (literal : Text) : Text :=
  placeholder key ++ comparedWith op literal

/-- The value, trimmed, is not empty, does not begin with `!`, and has no operator that is
looked for before the intended one or is the intended one. -/
def ReadsAsOperand (v : Text) : Prop :=
  trim v ≠ [] ∧ (trim v).head? ≠ some '!' ∧
    ∀ op ∈ [Operator.ge, .le, .eq, .ne], ¬ op.text <:+: v

/-- The evaluation ends with this result. -/
def Evaluates (host : Host) (order : Arrangement) (context : Fields) (s : Text) (b : Bool) :
    Prop :=
  ∃ fuel, evaluateCondition host order context fuel s = some b

theorem evaluateCondition_mono {host : Host} {order : Arrangement} {context : Fields}
    {fuel more : Nat} {s : Text} {b : Bool}
    (h : evaluateCondition host order context fuel s = some b) (hle : fuel ≤ more) :
    evaluateCondition host order context more s = some b := by
  induction fuel generalizing more s b with
  | zero => cases h
  | succ fuel ih =>
    obtain ⟨more, rfl⟩ : ∃ m, more = m + 1 := ⟨more - 1, by omega⟩
    rw [evaluateCondition] at h ⊢
    by_cases hempty : trim s = []
    · rwa [if_pos hempty] at h ⊢
    · rw [if_neg hempty] at h ⊢
      split at h
      · obtain ⟨b', hb', rfl⟩ := Option.map_eq_some_iff.mp h
        rw [ih hb' (by omega)]
        rfl
      · exact h

theorem Evaluates.unique {host : Host} {order : Arrangement} {context : Fields} {s : Text}
    {b b' : Bool} (h : Evaluates host order context s b) (h' : Evaluates host order context s b') :
    b = b' := by
  obtain ⟨fuel, hb⟩ := h
  obtain ⟨fuel', hb'⟩ := h'
  have hmax := evaluateCondition_mono hb (Nat.le_max_left fuel fuel')
  rw [evaluateCondition_mono hb' (Nat.le_max_right fuel fuel')] at hmax
  exact (Option.some.inj hmax).symm

/-- Without references left the expression decides. -/
theorem evaluates_expr (host : Host) (order : Arrangement) (context : Fields) {s : Text}
    (ho : ¬ opening <:+: s) (hne : trim s ≠ []) (hb : (trim s).head? ≠ some '!') :
    Evaluates host order context s (evaluateExpr host (trim s) context) := by
  refine ⟨1, ?_⟩
  have hno : ¬ opening <:+: trim s := fun h => ho (h.trans (trim_isInfix s))
  rw [evaluateCondition, if_neg hne, resolve_of_not_opening hno, trim_trim]
  split
  · rename_i rest hrest
    simp [hrest] at hb
  · rfl

/-- A negation in front is taken off. -/
theorem evaluates_negated {host : Host} {order : Arrangement} {context : Fields} {s rest : Text}
    {b : Bool} (ho : ¬ opening <:+: s) (hs : trim s = '!' :: rest)
    (h : Evaluates host order context rest b) : Evaluates host order context s (!b) := by
  obtain ⟨fuel, hb⟩ := h
  refine ⟨fuel + 1, ?_⟩
  have hno : ¬ opening <:+: trim s := fun h => ho (h.trans (trim_isInfix s))
  rw [evaluateCondition, if_neg (by simp [hs]), resolve_of_not_opening hno, trim_trim, hs]
  simp only [hb, Option.map_some]

/-! Pasting the value. -/

section Literal
variable {key literal : Text}

theorem not_mem_of_literal (h : ∀ c ∈ literal, isLiteralChar c = true) {c : Char}
    (hc : isLiteralChar c = false) : c ∉ literal := fun hm => by
  rw [h c hm] at hc
  cases hc

theorem trim_of_literal (h : ∀ c ∈ literal, isLiteralChar c = true) : trim literal = literal := by
  have hws (s : Text) (hs : ∀ c ∈ s, isLiteralChar c = true) : s.dropWhile isWhitespace = s := by
    cases s with
    | nil => rfl
    | cons c s =>
      have hc := hs c List.mem_cons_self
      simp only [isLiteralChar, Bool.and_eq_true, Bool.not_eq_true'] at hc
      exact trimStart_of_head hc.1
  rw [trim, trimStart, hws literal h, trimEnd,
    hws literal.reverse fun c hc => h c (List.mem_reverse.mp hc), List.reverse_reverse]

theorem infix_comparedWith {sub v : Text} {op : Operator} (hsub : ' ' ∉ sub)
    (h : sub <:+: v ++ comparedWith op literal) :
    sub <:+: v ∨ sub <:+: op.text ∨ sub <:+: literal := by
  obtain hv | hrest := infix_of_not_mem hsub h
  · exact Or.inl hv
  · exact Or.inr (infix_of_not_mem hsub hrest)

theorem mem_of_isInfix {sub s : Text} (h : sub <:+: s) {c : Char} (hc : c ∈ sub) : c ∈ s :=
  h.subset hc

theorem not_opening_comparedWith (op : Operator) (hl : ∀ c ∈ literal, isLiteralChar c = true)
    {v : Text} (hv : ¬ opening <:+: v) : ¬ opening <:+: v ++ comparedWith op literal := by
  intro ho
  obtain h | h | h := infix_comparedWith (by decide) ho
  · exact hv h
  · have hm := mem_of_isInfix h (show '\x7b' ∈ opening by decide)
    cases op <;> exact absurd hm (by decide)
  · exact not_mem_of_literal hl (by decide) (mem_of_isInfix h (show '\x7b' ∈ opening by decide))

theorem takeWhile_closing {s : Text} (t : Text) (hs : '\x7d' ∉ s) :
    (s ++ (closing ++ t)).takeWhile (· ≠ '\x7d') = s := by
  rw [List.takeWhile_append_of_pos fun c hc => by
    simpa using fun hcc : c = '\x7d' => hs (hcc ▸ hc)]
  simp [closing]

/-- No other key has its placeholder in the comparison. -/
theorem placeholder_of_infix_comparison {op : Operator} {k : Text}
    (hk : ∀ c ∈ key, isLiteralChar c = true) (hl : ∀ c ∈ literal, isLiteralChar c = true)
    (h : placeholder k <:+: comparison key op literal) : k = key := by
  obtain ⟨p, q, he⟩ := h
  have hcount (c : Char) (hc : isLiteralChar c = false) (hs : c ≠ ' ') (ho : c ∉ op.text) :
      (comparison key op literal).count c = (opening ++ closing).count c := by
    have hkey : key.count c = 0 := List.count_eq_zero.mpr (not_mem_of_literal hk hc)
    have hlit : literal.count c = 0 := List.count_eq_zero.mpr (not_mem_of_literal hl hc)
    have hop : op.text.count c = 0 := List.count_eq_zero.mpr ho
    simp only [comparison, placeholder, comparedWith, List.count_append,
      List.count_cons_of_ne (Ne.symm hs), hkey, hlit, hop]
    omega
  have hopen := hcount '\x7b' (by decide) (by decide) (by cases op <;> decide)
  have hclose := hcount '\x7d' (by decide) (by decide) (by cases op <;> decide)
  have ho1 : (opening ++ closing).count '\x7b' = 2 := by decide
  have ho2 : (opening ++ closing).count '\x7d' = 2 := by decide
  have ho3 : opening.count '\x7b' = 2 := by decide
  have ho4 : closing.count '\x7d' = 2 := by decide
  have hp0 : p = [] := by
    -- the text opens with a brace, and the placeholder needs both of its opening braces
    cases p with
    | nil => rfl
    | cons c p =>
      have hc : c = '\x7b' := (List.cons.inj he).1
      rw [← he] at hopen
      simp only [placeholder, List.count_append, hc, List.cons_append, List.count_cons_self]
        at hopen
      omega
  subst hp0
  have hk0 : '\x7d' ∉ k := by
    intro hm
    have hpos := List.count_pos_iff.mpr hm
    rw [← he] at hclose
    simp only [placeholder, List.count_append] at hclose
    omega
  have htail : k ++ (closing ++ q) = key ++ (closing ++ comparedWith op literal) := by
    have he' : opening ++ (k ++ (closing ++ q)) =
        opening ++ (key ++ (closing ++ comparedWith op literal)) := by
      simpa [placeholder, comparison] using he
    exact List.append_cancel_left he'
  have hkey0 : '\x7d' ∉ key := not_mem_of_literal hk (by decide)
  rw [← takeWhile_closing q hk0, htail, takeWhile_closing _ hkey0]

/-- The value is pasted in as it is, whatever the order of the keys. -/
theorem resolve_comparison (order : Arrangement) {context : Fields} {op : Operator} {v : Text}
    (hk : ∀ c ∈ key, isLiteralChar c = true) (hl : ∀ c ∈ literal, isLiteralChar c = true)
    (hv : ¬ opening <:+: v) (hn : (context.map Prod.fst).Nodup)
    (hlookup : context.lookup key = some (.str v)) :
    resolvePromptTemplate order (comparison key op literal) context =
      v ++ comparedWith op literal := by
  have hmem : (key, Json.str v) ∈ order.arrange context :=
    (order.perm context).mem_iff.mpr ((lookup_eq_some_iff_mem hn).mp hlookup)
  have hnodup : ((order.arrange context).map Prod.fst).Nodup :=
    ((order.perm context).map Prod.fst).nodup_iff.mpr hn
  obtain ⟨before, after, hsplit⟩ := List.append_of_mem hmem
  rw [hsplit, List.map_append, List.map_cons] at hnodup
  have hbefore : ∀ entry ∈ before, entry.1 ≠ key := fun entry hentry he =>
    List.disjoint_of_nodup_append hnodup (List.mem_map_of_mem hentry) (he ▸ List.mem_cons_self)
  have hfixed (entries : Fields) (t : Text)
      (h : ∀ entry ∈ entries, ¬ placeholder entry.1 <:+: t) : entries.foldl
        (fun out entry => replaceAll (placeholder entry.1) (replacementText entry.2) out) t = t := by
    induction entries with
    | nil => rfl
    | cons entry entries ih =>
      rw [List.foldl_cons, replaceAll_of_not_infix (h entry List.mem_cons_self),
        ih fun e he => h e (List.mem_cons_of_mem entry he)]
  have hopening {k t : Text} (ho : ¬ opening <:+: t) : ¬ placeholder k <:+: t := fun h =>
    ho (List.IsInfix.trans ⟨[], k ++ closing, by simp [placeholder]⟩ h)
  have htail : ¬ opening <:+: comparedWith op literal :=
    not_opening_comparedWith op hl (v := []) (by decide)
  have hne : placeholder key ≠ [] := by simp [placeholder, opening]
  rw [resolvePromptTemplate, hsplit, List.foldl_append, List.foldl_cons,
    hfixed before _ fun entry hentry hin =>
      hbefore entry hentry (placeholder_of_infix_comparison hk hl hin)]
  rw [comparison, Substitute.replaceAll_of_prefix _ _ hne,
    replaceAll_of_not_infix (hopening htail), replacementText]
  exact hfixed after _ fun entry _ => hopening (not_opening_comparedWith op hl hv)

theorem trimEnd_of_literal (hne : literal ≠ []) (hl : ∀ c ∈ literal, isLiteralChar c = true)
    (s : Text) : trimEnd (s ++ literal) = s ++ literal := by
  have hlast := hl _ (List.getLast_mem hne)
  simp only [isLiteralChar, Bool.and_eq_true, Bool.not_eq_true'] at hlast
  rw [← List.dropLast_concat_getLast hne, ← List.append_assoc, trimEnd_of_last hlast.1]

/-- Blank values leave the operator in front. -/
theorem trim_blank (hne : literal ≠ []) (hl : ∀ c ∈ literal, isLiteralChar c = true) {v : Text}
    (op : Operator) (hv : trim v = []) :
    trim (v ++ comparedWith op literal) = op.text ++ ' ' :: literal := by
  obtain ⟨before, after, he, hb, ha⟩ := trim_split v
  have hblank : ∀ c ∈ v, isWhitespace c = true := by
    intro c hc
    rw [he, hv, List.append_nil] at hc
    exact (List.mem_append.mp hc).elim (hb c) (ha c)
  have hfront : trimStart (comparedWith op literal) = op.text ++ ' ' :: literal := by
    cases op <;> rfl
  rw [trim, trimStart_append_left _ hblank, hfront]
  have hend := trimEnd_of_literal hne hl (op.text ++ [' '])
  simpa using hend

/-- Other values stand in front, with the white space that follows them. -/
theorem trim_pasted (hne : literal ≠ []) (hl : ∀ c ∈ literal, isLiteralChar c = true) {v : Text}
    (hv : trim v ≠ []) : ∃ before after, (∀ c ∈ before, isWhitespace c = true) ∧
      (∀ c ∈ after, isWhitespace c = true) ∧ v = before ++ (trim v ++ after) ∧
      ∀ op, trim (v ++ comparedWith op literal) = trim v ++ after ++ comparedWith op literal := by
  obtain ⟨before, after, he, hb, ha⟩ := trim_split v
  refine ⟨before, after, hb, ha, he.trans (List.append_assoc before _ after), fun op => ?_⟩
  cases hhead : trim v with
  | nil => exact absurd hhead hv
  | cons c rest =>
    have hstart : trimStart (v ++ comparedWith op literal) =
        c :: (rest ++ after ++ comparedWith op literal) := by
      rw [he, hhead, List.append_assoc, List.append_assoc, trimStart_append_left _ hb,
        List.cons_append, trimStart_of_head (head_of_trim hhead), List.append_assoc]
    have hend := trimEnd_of_literal hne hl (c :: (rest ++ after ++ ' ' :: (op.text ++ [' '])))
    rw [trim, hstart]
    simpa [comparedWith] using hend

/-- The comparison is evaluated as the text that it becomes. -/
theorem evaluate_comparison (host : Host) (order : Arrangement) {context : Fields}
    {op : Operator} {v : Text} (hk : ∀ c ∈ key, isLiteralChar c = true) (hne : literal ≠ [])
    (hl : ∀ c ∈ literal, isLiteralChar c = true) (hv : ¬ opening <:+: v)
    (hn : (context.map Prod.fst).Nodup) (hlookup : context.lookup key = some (.str v))
    (fuel : Nat) : evaluateCondition host order context fuel (comparison key op literal) =
      evaluateCondition host order context fuel (v ++ comparedWith op literal) := by
  have hpasted : trim (v ++ comparedWith op literal) ≠ [] := by
    by_cases hb : trim v = []
    · rw [trim_blank hne hl op hb]
      cases op <;> simp [Operator.text]
    · obtain ⟨_, after, -, -, -, htrim⟩ := trim_pasted hne hl hb
      rw [htrim]
      simp [hb]
  have htrim : trim (comparison key op literal) = comparison key op literal := by
    have hstart : trimStart (comparison key op literal) = comparison key op literal :=
      trimStart_of_head (by decide)
    have hend := trimEnd_of_literal hne hl (placeholder key ++ ' ' :: (op.text ++ [' ']))
    rw [trim, hstart]
    simpa [comparison, comparedWith] using hend
  have hno : ¬ opening <:+: trim (v ++ comparedWith op literal) := fun h =>
    not_opening_comparedWith op hl hv (h.trans (trim_isInfix _))
  cases fuel with
  | zero => rfl
  | succ fuel =>
    rw [evaluateCondition, evaluateCondition, htrim, if_neg hpasted,
      if_neg (by simp [comparison, placeholder, opening]),
      resolve_comparison order hk hl hv hn hlookup, resolve_of_not_opening hno, trim_trim]

end Literal

/-! Reading the comparison. -/

theorem evaluateExpr_of_operator (host : Host) {context : Fields} {expr l r : Text}
    {op : Operator} (hs : ' ' ∈ expr) (h : findOperator expr = some (op, l, r)) :
    evaluateExpr host expr context = compareValues host (trim l) (trim r) op context := by
  have hlower : ' ' ∈ expr.map toAsciiLower := List.mem_map.mpr ⟨' ', hs, by decide⟩
  have hnot {words : List Text} (hw : ∀ word ∈ words, ' ' ∉ word) :
      words.contains (expr.map toAsciiLower) = false := by
    rw [List.contains_eq_mem]
    exact decide_eq_false fun hm => hw _ hm hlower
  rw [evaluateExpr, if_neg (by rw [hnot (by decide)]; decide), if_neg (by rw [hnot (by decide)]; decide), h]

theorem compareValues_ne (host : Host) (left right : Text) (context : Fields) :
    compareValues host left right .ne context = !compareValues host left right .eq context := by
  have hholds (o : Ordering) : Operator.ne.holds o = !Operator.eq.holds o := by
    cases o <;> rfl
  rw [compareValues, compareValues]
  simp only [hholds]
  split <;> rfl

/-- The operators are tried one after the other. -/
theorem findOperator_of_split {before after : List Operator} {op : Operator} {expr l r : Text}
    (hops : operators = before ++ op :: after) (hnone : ∀ o ∈ before, ¬ o.text <:+: expr)
    (hsplit : splitOnce op.text expr = some (l, r)) : findOperator expr = some (op, l, r) := by
  have hbefore : before.findSome? (fun o => (splitOnce o.text expr).map fun parts => (o, parts)) =
      none := by
    refine List.findSome?_eq_none_iff.mpr fun o ho => ?_
    rw [splitOnce_eq_none (hnone o ho)]
    rfl
  rw [findOperator, hops, List.findSome?_append, hbefore, Option.none_or, List.findSome?_cons,
    hsplit]
  rfl

/-- Each operator with the ones tried before it. -/
def triedBefore : Operator → List Operator
  | .ge => []
  | .le => [.ge]
  | .eq => [.ge, .le]
  | .ne => [.ge, .le, .eq]
  | .gt => [.ge, .le, .eq, .ne]
  | .lt => [.ge, .le, .eq, .ne, .gt]

theorem operators_split (op : Operator) :
    ∃ after, operators = triedBefore op ++ op :: after := by
  cases op
  · exact ⟨_, rfl⟩
  · exact ⟨_, rfl⟩
  · exact ⟨_, rfl⟩
  · exact ⟨_, rfl⟩
  · exact ⟨_, rfl⟩
  · exact ⟨_, rfl⟩

theorem operator_text_ne_nil (op : Operator) : op.text ≠ [] := by
  cases op <;> simp [Operator.text]

theorem text_not_blank (op : Operator) {c : Char} (hc : c ∈ op.text) :
    isWhitespace c = false := by
  have h : c ∈ ['>', '<', '=', '!'] := by
    cases op <;> simp only [Operator.text, List.mem_cons, List.not_mem_nil] at hc ⊢ <;> tauto
  fin_cases h <;> decide

theorem blank_not_mem_text (op : Operator) : ' ' ∉ op.text := by
  cases op <;> decide

/-- Each operator tried before, and this one, has an equals sign. -/
theorem equals_mem_text {op o : Operator} (hop : op = .eq ∨ op = .ne)
    (ho : o ∈ op :: triedBefore op) : '=' ∈ o.text := by
  obtain rfl | rfl := hop
  · fin_cases ho <;> decide
  · fin_cases ho <;> decide

theorem equals_not_mem {literal : Text} (hl : ∀ c ∈ literal, isLiteralChar c = true) :
    '=' ∉ literal := not_mem_of_literal hl (by decide)

/-- No operator tried before occurs in the intended one. -/
theorem not_infix_text {op o : Operator} (hop : op = .eq ∨ op = .ne) (ho : o ∈ triedBefore op) :
    ¬ o.text <:+: op.text := by
  obtain rfl | rfl := hop
  · fin_cases ho <;> decide
  · fin_cases ho <;> decide

/-- A value that reads as an operand is compared as it is. -/
theorem findOperator_pasted {literal u : Text} {op : Operator} (hop : op = .eq ∨ op = .ne)
    (hl : ∀ c ∈ literal, isLiteralChar c = true)
    (hu : ∀ o ∈ op :: triedBefore op, ¬ o.text <:+: u) :
    findOperator (u ++ comparedWith op literal) = some (op, u ++ [' '], ' ' :: literal) := by
  obtain ⟨after, hops⟩ := operators_split op
  refine findOperator_of_split hops (fun o ho hin => ?_) ?_
  · obtain h | h | h := infix_comparedWith (blank_not_mem_text o) hin
    · exact hu o (List.mem_cons_of_mem op ho) h
    · exact not_infix_text hop ho h
    · exact equals_not_mem hl (mem_of_isInfix h (equals_mem_text hop (List.mem_cons_of_mem op ho)))
  · have hclear : ¬ op.text <:+: (u ++ [' ']) ++ op.text.dropLast := by
      intro hin
      rw [List.append_assoc] at hin
      obtain h | h := infix_of_not_mem (blank_not_mem_text op) hin
      · exact hu op List.mem_cons_self h
      · have hlen : op.text.length ≤ op.text.dropLast.length := h.length_le
        have hpos := List.length_pos_iff.mpr (operator_text_ne_nil op)
        rw [List.length_dropLast] at hlen
        omega
    have hsplit := splitOnce_of_clear (operator_text_ne_nil op) hclear (' ' :: literal)
    simpa [comparedWith] using hsplit

/-- So the comparison of a value that reads as an operand compares the value. -/
theorem evaluates_comparison {host : Host} {order : Arrangement} {context : Fields}
    {key literal v : Text} {op : Operator} (hop : op = .eq ∨ op = .ne)
    (hk : ∀ c ∈ key, isLiteralChar c = true) (hne : literal ≠ [])
    (hl : ∀ c ∈ literal, isLiteralChar c = true) (hv : ¬ opening <:+: v)
    (hn : (context.map Prod.fst).Nodup) (hlookup : context.lookup key = some (.str v))
    (hread : ReadsAsOperand v) :
    Evaluates host order context (comparison key op literal)
      (compareValues host (trim v) literal op context) := by
  obtain ⟨hblank, hbang, hops⟩ := hread
  obtain ⟨before, after, -, ha, hsplit, htrim⟩ := trim_pasted hne hl hblank
  have hu : ∀ o ∈ op :: triedBefore op, ¬ o.text <:+: trim v ++ after := by
    intro o ho hin
    refine hops o ?_ (hin.trans ⟨before, [], by rw [List.append_nil]; exact hsplit.symm⟩)
    obtain rfl | rfl := hop
    · fin_cases ho <;> simp
    · fin_cases ho <;> simp
  have hfind := findOperator_pasted hop hl hu
  have hvalue : trim (trim v ++ after ++ [' ']) = trim v := by
    have hspace : ∀ c ∈ after ++ [' '], isWhitespace c = true := by
      intro c hc
      obtain hc | hc := List.mem_append.mp hc
      · exact ha c hc
      · rw [List.mem_singleton.mp hc]
        decide
    have hs : trim ([] ++ trim v ++ (after ++ [' '])) = trim (trim v) :=
      trim_surround (trim v) (by simp) hspace
    rw [List.nil_append, trim_trim] at hs
    rwa [List.append_assoc]
  have hliteral : trim (' ' :: literal) = literal := by
    have hspace : ∀ c ∈ [' '], isWhitespace c = true := by
      intro c hc
      rw [List.mem_singleton.mp hc]
      decide
    have hs : trim ([' '] ++ literal ++ []) = trim literal :=
      trim_surround literal hspace (by simp)
    rw [trim_of_literal hl, List.append_nil] at hs
    exact hs
  have hopen : ¬ opening <:+: v ++ comparedWith op literal := not_opening_comparedWith op hl hv
  have hexpr := evaluates_expr host order context hopen
    (by rw [htrim]; simp [hblank]) (by
      rw [htrim]
      cases hhead : trim v with
      | nil => exact absurd hhead hblank
      | cons c rest => simpa [hhead] using hbang)
  rw [htrim, evaluateExpr_of_operator host (by simp [comparedWith]) hfind, hvalue, hliteral]
    at hexpr
  obtain ⟨fuel, hfuel⟩ := hexpr
  exact ⟨fuel, by rw [evaluate_comparison host order hk hne hl hv hn hlookup]; exact hfuel⟩

end NemesisBot.Engine
