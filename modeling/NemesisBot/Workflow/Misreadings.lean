import NemesisBot.Workflow.Comparisons

/-! A value that does not read as an operand is misread next to a long enough literal, so the
comparisons with a value are right exactly when it reads as an operand. -/
namespace NemesisBot.Engine
open Strings


def crosses (n : Nat) : Text := List.replicate n 'x'

theorem crosses_literal (n : Nat) : ∀ c ∈ crosses n, isLiteralChar c = true := by
  intro c hc
  rw [List.eq_of_mem_replicate hc]
  decide

theorem crosses_ne_nil {n : Nat} (h : 0 < n) : crosses n ≠ [] := by
  rw [crosses, Ne, List.replicate_eq_nil_iff]
  omega

theorem length_crosses (n : Nat) : (crosses n).length = n := List.length_replicate

section Misread
variable {host : Host} (hhost : NumeralsOnly host) {context : Fields}

include hhost in
/-- Such a text is no number, and none of the words with a meaning. -/
theorem word_of_mem {c : Char} {s : Text} (hc : c ∈ s) (h : c ∈ ['=', '!', 'x']) :
    host.parse s = none ∧ s ∉ ["true".toList, "false".toList, "null".toList] := by
  constructor
  · cases hp : host.parse s with
    | none => rfl
    | some f =>
      have hnum := hhost s f hp c hc
      fin_cases h <;> exact absurd hnum (by decide)
  · intro hs
    fin_cases hs <;> fin_cases h <;> exact absurd hc (by decide)

/-- An operand that is no number and none of these words is a string: what it is bound to, the
inside of its quotes, or its text. -/
theorem resolveOperand_of_word {s : Text} (hs : trim s ≠ []) (hp : host.parse (trim s) = none)
    (hw : trim s ∉ ["true".toList, "false".toList, "null".toList]) {v : Text}
    (hl : ∀ j, context.lookup (trim s) = some j → j = .str v) :
    ∃ t, resolveOperand host s context = .json (.str t) ∧
      t.length ≤ max (trim s).length v.length := by
  cases hcase : trim s with
  | nil => exact absurd hcase hs
  | cons c rest =>
    rw [hcase] at hp hw hl
    simp only [List.mem_cons, List.not_mem_nil, or_false, not_or] at hw
    obtain ⟨ht, hf, hnull⟩ := hw
    rw [resolveOperand, hcase]
    by_cases hq : (c = '"' ∨ c = '\'') ∧ rest.getLast? = some c
    · refine ⟨rest.dropLast, by simp only [if_pos hq], ?_⟩
      simp only [List.length_dropLast, List.length_cons]
      omega
    · simp only [if_neg hq]
      cases hlookup : context.lookup (c :: rest) with
      | some j =>
        obtain rfl := hl j hlookup
        exact ⟨v, rfl, Nat.le_max_right _ _⟩
      | none =>
        refine ⟨c :: rest, ?_, Nat.le_max_left _ _⟩
        simp only [hp]
        rw [if_neg ht, if_neg hf, if_neg hnull]

theorem compareValues_of_str {l r t : Text} (op : Operator)
    (hr : resolveOperand host r context = .json (.str t)) : compareValues host l r op context =
      op.holds (compare (resolveOperand host l context).text t) := by
  have hnone : (Operand.json (.str t) : Operand host).asF64 = none := rfl
  rw [compareValues, hr]
  simp only [hnone]
  cases (resolveOperand host l context).asF64 <;> rfl

theorem resolveOperand_congr {context' : Fields} {s : Text}
    (h : context.lookup (trim s) = context'.lookup (trim s)) :
    resolveOperand host s context = resolveOperand host s context' := by
  rw [resolveOperand, resolveOperand]
  cases hs : trim s with
  | nil => rfl
  | cons c rest =>
    rw [hs] at h
    simp only [h]

include hhost in
theorem resolveOperand_crosses {n : Nat} (hn : 0 < n) (hl : context.lookup (crosses n) = none) :
    resolveOperand host (crosses n) context = .json (.str (crosses n)) := by
  have hx : 'x' ∈ crosses n := List.mem_replicate.mpr ⟨by omega, rfl⟩
  obtain ⟨hp, hw⟩ := word_of_mem hhost hx (by decide)
  have htrim := trim_of_literal (crosses_literal n)
  cases hcase : crosses n with
  | nil => exact absurd hcase (crosses_ne_nil hn)
  | cons c rest =>
    have hc : c = 'x' := List.eq_of_mem_replicate (hcase ▸ List.mem_cons_self : c ∈ crosses n)
    rw [hcase] at hp hw hl htrim
    simp only [List.mem_cons, List.not_mem_nil, or_false, not_or] at hw
    obtain ⟨ht, hf, hnull⟩ := hw
    rw [resolveOperand, htrim]
    simp only [hl, hp, if_neg ht, if_neg hf, if_neg hnull]
    have hq : ¬ ((c = '"' ∨ c = '\'') ∧ rest.getLast? = some c) := by
      rintro ⟨hquote, -⟩
      rw [hc] at hquote
      exact absurd hquote (by decide)
    rw [if_neg hq]

include hhost in
/-- A shorter string is not the literal. -/
theorem compare_crosses {n : Nat} {s t : Text} (hn : 0 < n)
    (hl : context.lookup (crosses n) = none)
    (hs : resolveOperand host s context = .json (.str t)) (ht : t.length < n) :
    compareValues host s (crosses n) .eq context = false := by
  rw [compareValues_of_str .eq (resolveOperand_crosses hhost hn hl), hs]
  have hne : t ≠ crosses n := by
    rintro rfl
    rw [length_crosses] at ht
    omega
  have hcmp : compare t (crosses n) ≠ .eq := fun h => hne (Std.compare_eq_iff_eq.mp h)
  simpa [Operator.holds, Operand.text, replacementText] using hcmp

/-- Behind an operator found in the value the rest of the comparison is one operand. -/
theorem trim_ends {literal : Text} (hne : literal ≠ [])
    (hl : ∀ c ∈ literal, isLiteralChar c = true) (op : Operator) (y : Text) :
    ∃ z, trim (y ++ comparedWith op literal) = z ++ (op.text ++ ' ' :: literal) := by
  by_cases hy : trim y = []
  · exact ⟨[], by rw [trim_blank hne hl op hy, List.nil_append]⟩
  · obtain ⟨_, after, -, -, -, htrim⟩ := trim_pasted hne hl hy
    exact ⟨trim y ++ after ++ [' '], by rw [htrim]; simp [comparedWith]⟩

/-- That operand can be bound to anything. -/
theorem resolveOperand_ends {n : Nat} {op : Operator} {r z t : Text} (hn : 0 < n)
    (hr : trim r = z ++ (op.text ++ ' ' :: crosses n))
    (hl : context.lookup (trim r) = some (.str t)) :
    resolveOperand host (trim r) context = .json (.str t) := by
  have hlast : (z ++ (op.text ++ ' ' :: crosses n)).getLast? = some 'x' := by
    obtain ⟨m, rfl⟩ : ∃ m, n = m + 1 := ⟨n - 1, by omega⟩
    have hconcat : z ++ (op.text ++ ' ' :: crosses (m + 1)) =
        (z ++ (op.text ++ ' ' :: crosses m)) ++ ['x'] := by
      simp [crosses, List.replicate_succ']
    rw [hconcat, List.getLast?_concat]
  rw [resolveOperand, trim_trim]
  cases hcase : trim r with
  | nil =>
    rw [hr] at hcase
    simp at hcase
  | cons c rest =>
    rw [hcase] at hl
    have hq : ¬ ((c = '"' ∨ c = '\'') ∧ rest.getLast? = some c) := by
      rintro ⟨hquote, hend⟩
      have hrest : rest ≠ [] := by
        rintro rfl
        simp at hend
      rw [← hr, hcase, List.getLast?_cons_of_ne_nil hrest, hend, Option.some.injEq] at hlast
      rw [hlast] at hquote
      exact absurd hquote (by decide)
    simp only [if_neg hq, hl]

/-- The first operator found is the first one that the value has. -/
theorem findOperator_inside {literal u : Text} {op o : Operator} (hop : op = .eq ∨ op = .ne)
    (hl : ∀ c ∈ literal, isLiteralChar c = true) (ho : o ∈ op :: triedBefore op)
    (hin : o.text <:+: u) (hfirst : ∀ o' ∈ triedBefore o, ¬ o'.text <:+: u) :
    ∃ l y, findOperator (u ++ comparedWith op literal) = some (o, l, y ++ comparedWith op literal) ∧
      l.length ≤ u.length := by
  obtain ⟨p, q, hu⟩ := hin
  obtain ⟨l, r, hsplit, y, hy⟩ :=
    splitOnce_leftmost (operator_text_ne_nil o) p (q ++ comparedWith op literal)
  have hshape : p ++ (o.text ++ (q ++ comparedWith op literal)) = u ++ comparedWith op literal := by
    rw [← hu]
    simp only [List.append_assoc]
  rw [hshape] at hsplit
  have hsub : triedBefore o ⊆ triedBefore op := by
    obtain rfl | rfl := hop
    · fin_cases ho <;> simp [triedBefore]
    · fin_cases ho <;> simp [triedBefore]
  obtain ⟨after, hops⟩ := operators_split o
  refine ⟨l, y ++ q, ?_, ?_⟩
  · rw [List.append_assoc, hy]
    refine findOperator_of_split hops (fun o' ho' hin' => ?_) hsplit
    obtain h | h | h := infix_comparedWith (blank_not_mem_text o') hin'
    · exact hfirst o' ho' h
    · exact not_infix_text hop (hsub ho') h
    · exact equals_not_mem hl
        (mem_of_isInfix h (equals_mem_text hop (List.mem_cons_of_mem op (hsub ho'))))
  · have hlen := congrArg List.length (splitOnce_eq_some hsplit)
    rw [← hy] at hlen
    simp only [List.length_append] at hlen
    omega

/-- What is evaluated at a comparison, as long as the value does not begin with `!`. -/
theorem evaluates_pasted (order : Arrangement) {key v literal l r : Text} {op o : Operator}
    (hk : ∀ c ∈ key, isLiteralChar c = true) (hne : literal ≠ [])
    (hl : ∀ c ∈ literal, isLiteralChar c = true) (hv : ¬ opening <:+: v)
    (hn : (context.map Prod.fst).Nodup) (hlookup : context.lookup key = some (.str v))
    (hbang : (trim (v ++ comparedWith op literal)).head? ≠ some '!')
    (hfind : findOperator (trim (v ++ comparedWith op literal)) = some (o, l, r)) :
    Evaluates host order context (comparison key op literal)
      (compareValues host (trim l) (trim r) o context) := by
  obtain ⟨z, hz⟩ := trim_ends hne hl op v
  have hspace : ' ' ∈ trim (v ++ comparedWith op literal) := by
    rw [hz]
    simp
  obtain ⟨fuel, hfuel⟩ := evaluates_expr host order context
    (not_opening_comparedWith op hl hv) (List.ne_nil_of_mem hspace) hbang
  rw [evaluateExpr_of_operator host hspace hfind] at hfuel
  exact ⟨fuel, by rw [evaluate_comparison host order hk hne hl hv hn hlookup]; exact hfuel⟩

theorem lookup_bound {key bound v t : Text} (hne : bound ≠ key) (x : Text) :
    ([(key, Json.str v), (bound, Json.str t)] : Fields).lookup x =
      if x = key then some (.str v) else if x = bound then some (.str t) else none := by
  by_cases hk : x = key
  · subst hk
    simp
  · have hkb : (x == key) = false := beq_eq_false_iff_ne.mpr hk
    by_cases hb : x = bound
    · subst hb
      simp [List.lookup, hkb, hk]
    · have hbb : (x == bound) = false := beq_eq_false_iff_ne.mpr hb
      simp [List.lookup, hkb, hbb, hk, hb]

include hhost in
/-- An operator in the value is taken for the intended one. With what follows it bound to what
precedes it the result is wrong. -/
theorem misread_operator (order : Arrangement) {key v : Text} {op o : Operator} {n : Nat}
    (hop : op = .eq ∨ op = .ne) (hk : ∀ c ∈ key, isLiteralChar c = true)
    (hv : ¬ opening <:+: v) (hblank : trim v ≠ []) (hbang : (trim v).head? ≠ some '!')
    (ho : o ∈ op :: triedBefore op) (hin : o.text <:+: v)
    (hfirst : ∀ o' ∈ triedBefore o, ¬ o'.text <:+: v) (hwrong : o = .ne ↔ op = .ne)
    (hn : v.length + key.length < n) :
    ∃ context : Fields, (context.map Prod.fst).Nodup ∧ context.lookup key = some (.str v) ∧
      context.lookup (crosses n) = none ∧
      ¬ Evaluates host order context (comparison key op (crosses n))
        (compareValues host (trim v) (crosses n) op context) := by
  have hpos : 0 < n := by omega
  have hl := crosses_literal n
  have hne := crosses_ne_nil hpos
  obtain ⟨before, after, hb, ha, hsplit, htrim⟩ := trim_pasted hne hl hblank
  have hinu : o.text <:+: trim v ++ after := by
    refine infix_of_disjoint (operator_text_ne_nil o) (fun c hc hm => ?_) (hsplit ▸ hin)
    have hws := hb c hc
    rw [text_not_blank o hm] at hws
    cases hws
  have hfirstu : ∀ o' ∈ triedBefore o, ¬ o'.text <:+: trim v ++ after := fun o' ho' h' =>
    hfirst o' ho' (h'.trans ⟨before, [], by rw [List.append_nil]; exact hsplit.symm⟩)
  obtain ⟨l, y, hfind, hlen⟩ := findOperator_inside hop hl ho hinu hfirstu
  have hulen : (trim v ++ after).length ≤ v.length := by
    have := congrArg List.length hsplit
    rw [List.length_append] at this
    omega
  obtain ⟨z, hz⟩ := trim_ends hne hl op y
  have hright : n < (trim (y ++ comparedWith op (crosses n))).length := by
    rw [hz]
    simp only [List.length_append, List.length_cons, length_crosses]
    omega
  have hkey : trim (y ++ comparedWith op (crosses n)) ≠ key := by
    intro he
    rw [he] at hright
    omega
  have hleft : trim l ≠ trim (y ++ comparedWith op (crosses n)) := by
    intro he
    have hle := (trim_isInfix l).length_le
    rw [he] at hle
    omega
  let value := (resolveOperand host (trim l) [(key, .str v)]).text
  let context : Fields :=
    [(key, .str v), (trim (y ++ comparedWith op (crosses n)), .str value)]
  have hlookup := lookup_bound (v := v) (t := value) hkey
  have hnodup : (context.map Prod.fst).Nodup := by
    simpa [context] using hkey.symm
  have hcrosses : context.lookup (crosses n) = none := by
    have h1 : crosses n ≠ key := fun he => by
      have := congrArg List.length he
      rw [length_crosses] at this
      omega
    have h2 : crosses n ≠ trim (y ++ comparedWith op (crosses n)) := fun he => by
      rw [← he, length_crosses] at hright
      omega
    exact (hlookup _).trans (by rw [if_neg h1, if_neg h2])
  refine ⟨context, hnodup, (hlookup key).trans (if_pos rfl), hcrosses, fun hexpected => ?_⟩
  have hcode : Evaluates host order context (comparison key op (crosses n))
      (compareValues host (trim l) (trim (y ++ comparedWith op (crosses n))) o context) := by
    refine evaluates_pasted order hk hne hl hv hnodup ((hlookup key).trans (if_pos rfl)) ?_
      (by rw [htrim]; exact hfind)
    rw [htrim]
    cases hhead : trim v with
    | nil => exact absurd hhead hblank
    | cons c rest => simpa [hhead] using hbang
  have hsame : resolveOperand host (trim l) context =
      resolveOperand host (trim l) [(key, .str v)] := by
    refine resolveOperand_congr ((hlookup _).trans ?_)
    rw [trim_trim, if_neg hleft]
    by_cases he : trim l = key
    · simp [he]
    · have hb : (trim l == key) = false := beq_eq_false_iff_ne.mpr he
      simp [List.lookup, he, hb]
  have hbound : resolveOperand host (trim (y ++ comparedWith op (crosses n))) context =
      .json (.str value) :=
    resolveOperand_ends hpos hz ((hlookup _).trans (by rw [if_neg hkey, if_pos rfl]))
  have heq : '=' ∈ trim v := by
    have hmem : '=' ∈ v := mem_of_isInfix hin (equals_mem_text hop ho)
    have hcount := count_trim (c := '=') (by decide) v
    exact List.count_pos_iff.mp (hcount ▸ List.count_pos_iff.mpr hmem)
  obtain ⟨hp, hw⟩ := word_of_mem hhost heq (by decide)
  have hvr : trim v ≠ trim (y ++ comparedWith op (crosses n)) := by
    intro he
    have hle := (trim_isInfix v).length_le
    rw [he] at hle
    omega
  have hbindings (j : Json) (hj : context.lookup (trim (trim v)) = some j) : j = .str v := by
    have hj' := (hlookup (trim (trim v))).symm.trans hj
    rw [trim_trim, if_neg hvr] at hj'
    split at hj'
    · exact (Option.some.inj hj').symm
    · cases hj'
  obtain ⟨t, ht, htlen⟩ := resolveOperand_of_word (by rwa [trim_trim]) (by rwa [trim_trim])
    (by rwa [trim_trim]) hbindings
  have hshort : t.length < n := by
    have hle := (trim_isInfix v).length_le
    rw [trim_trim] at htlen
    omega
  have hfalse := compare_crosses hhost hpos hcrosses ht hshort
  have hboth := hcode.unique hexpected
  rw [compareValues_of_str o hbound, hsame, Std.compare_eq_iff_eq.mpr rfl] at hboth
  obtain rfl | rfl := hop
  · rw [hfalse] at hboth
    cases o <;> simp [Operator.holds] at hboth hwrong
    all_goals exact absurd ho (by simp [triedBefore])
  · rw [compareValues_ne, hfalse, hwrong.mpr rfl] at hboth
    simp [Operator.holds] at hboth

/-- The literal is bound by neither of the contexts below. -/
theorem crosses_ne {n : Nat} {s : Text} (h : s.length < n) : crosses n ≠ s := by
  rintro rfl
  rw [length_crosses] at h
  omega

theorem evaluateExpr_of_text {expr : Text} (hs : ' ' ∈ expr) (hfind : findOperator expr = none)
    (hl : context.lookup expr = none) : evaluateExpr host expr context = isTruthyStr expr := by
  have hlower : ' ' ∈ expr.map toAsciiLower := List.mem_map.mpr ⟨' ', hs, by decide⟩
  have hnot {words : List Text} (hw : ∀ word ∈ words, ' ' ∉ word) :
      words.contains (expr.map toAsciiLower) = false := by
    rw [List.contains_eq_mem]
    exact decide_eq_false fun hm => hw _ hm hlower
  rw [evaluateExpr, if_neg (by rw [hnot (by decide)]; decide),
    if_neg (by rw [hnot (by decide)]; decide), hfind]
  simp only [hl]

include hhost in
/-- Behind a blank value the `!` of `!=` is taken for a negation. -/
theorem misread_blank (order : Arrangement) {key v : Text} {n : Nat}
    (hk : ∀ c ∈ key, isLiteralChar c = true) (hv : ¬ opening <:+: v) (hblank : trim v = [])
    (hn : v.length + key.length + 4 < n) :
    ∃ context : Fields, (context.map Prod.fst).Nodup ∧ context.lookup key = some (.str v) ∧
      context.lookup (crosses n) = none ∧
      ¬ Evaluates host order context (comparison key .ne (crosses n))
        (compareValues host (trim v) (crosses n) .ne context) := by
  have hpos : 0 < n := by omega
  have hl := crosses_literal n
  have hne := crosses_ne_nil hpos
  let context : Fields := [(key, .str v)]
  have hnodup : (context.map Prod.fst).Nodup := by simp [context]
  have hbound : context.lookup key = some (.str v) := by simp [context]
  have hfree {s : Text} (hs : s ≠ key) : context.lookup s = none := by
    have hb : (s == key) = false := beq_eq_false_iff_ne.mpr hs
    simp [context, List.lookup, hb]
  have hcrosses : context.lookup (crosses n) = none := hfree (crosses_ne (by omega))
  refine ⟨context, hnodup, hbound, hcrosses, fun hexpected => ?_⟩
  have hrest : trim ('=' :: ' ' :: crosses n) = '=' :: ' ' :: crosses n := by
    have hend := trimEnd_of_literal hne hl ['=', ' ']
    rw [trim, trimStart_of_head (by decide)]
    exact hend
  have hmem {c : Char} (hc : isLiteralChar c = false) (h1 : c ≠ '=') (h2 : c ≠ ' ') :
      c ∉ '=' :: ' ' :: crosses n := by
    simp only [List.mem_cons, not_or]
    exact ⟨h1, h2, not_mem_of_literal hl hc⟩
  have hfind : findOperator ('=' :: ' ' :: crosses n) = none := by
    refine List.findSome?_eq_none_iff.mpr fun o _ => ?_
    rw [splitOnce_eq_none, Option.map_none]
    intro hin
    have hsplit : o.text <:+: ['='] ++ ' ' :: crosses n := hin
    obtain h | h := infix_of_not_mem (blank_not_mem_text o) hsplit
    · cases o <;> exact absurd h (by decide)
    · cases ho : o.text with
      | nil => exact operator_text_ne_nil o ho
      | cons c w =>
        have hc : c ∈ crosses n := mem_of_isInfix h (by rw [ho]; exact List.mem_cons_self)
        have hx : c = 'x' := List.eq_of_mem_replicate hc
        rw [hx] at ho
        cases o <;> simp [Operator.text] at ho
  have hlookup : context.lookup ('=' :: ' ' :: crosses n) = none := by
    refine hfree fun he => ?_
    have hlen := congrArg List.length he
    simp only [List.length_cons, length_crosses] at hlen
    omega
  have htruthy : isTruthyStr ('=' :: ' ' :: crosses n) = true := by
    rw [isTruthyStr, hrest]
    simp [toAsciiLower]
  have htrue : Evaluates host order context ('=' :: ' ' :: crosses n) true := by
    have hopen : ¬ opening <:+: '=' :: ' ' :: crosses n := fun h =>
      hmem (by decide) (by decide) (by decide)
        (mem_of_isInfix h (show '\x7b' ∈ opening by decide))
    have hexpr := evaluates_expr host order context hopen (by rw [hrest]; simp)
      (by rw [hrest]; simp)
    rwa [hrest, evaluateExpr_of_text (by simp) hfind hlookup, htruthy] at hexpr
  have hcode : Evaluates host order context (comparison key .ne (crosses n)) false := by
    obtain ⟨fuel, hfuel⟩ := evaluates_negated (not_opening_comparedWith .ne hl hv)
      (trim_blank hne hl .ne hblank) htrue
    exact ⟨fuel, by
      rw [evaluate_comparison host order hk hne hl hv hnodup hbound]
      exact hfuel⟩
  have hnull : resolveOperand host [] context = .json .null := rfl
  have hfalse : compareValues host [] (crosses n) .eq context = false := by
    rw [compareValues_of_str .eq (resolveOperand_crosses hhost hpos hcrosses), hnull]
    have hneq : "null".toList ≠ crosses n := fun he => by
      have hm : 'n' ∈ crosses n := he ▸ (by decide : 'n' ∈ "null".toList)
      exact absurd (List.eq_of_mem_replicate hm) (by decide)
    have hcmp : compare "null".toList (crosses n) ≠ .eq := fun h =>
      hneq (Std.compare_eq_iff_eq.mp h)
    simpa [Operator.holds, Operand.text, replacementText, Json.render] using hcmp
  have hboth := hcode.unique hexpected
  rw [hblank, compareValues_ne, hfalse] at hboth
  cases hboth

theorem findOperator_split {expr l r : Text} {o : Operator}
    (h : findOperator expr = some (o, l, r)) : splitOnce o.text expr = some (l, r) := by
  obtain ⟨o', -, ho'⟩ := List.exists_of_findSome?_eq_some h
  obtain ⟨parts, hparts, he⟩ := Option.map_eq_some_iff.mp ho'
  obtain ⟨rfl, rfl⟩ := Prod.mk.inj he
  exact hparts

/-- An operator splits off a literal whole. -/
theorem suffix_of_split {o : Operator} {y l r : Text} {n : Nat}
    (h : y ++ crosses n = l ++ (o.text ++ r)) : crosses n <:+ r := by
  rw [← List.append_assoc] at h
  obtain ⟨a, hl, hr⟩ | ⟨a, -, hr⟩ := List.append_eq_append_iff.mp h
  · cases a using List.reverseRecOn with
    | nil => exact ⟨[], by simpa using hr⟩
    | append_singleton a c _ =>
      have hc : c = 'x' := List.eq_of_mem_replicate (hr ▸ by simp : c ∈ crosses n)
      have ho : o.text.getLast? = some c := by
        have hlast := congrArg List.getLast? hl
        rw [List.getLast?_append_of_ne_nil _ (operator_text_ne_nil o), ← List.append_assoc,
          List.getLast?_concat] at hlast
        exact hlast
      rw [hc] at ho
      cases o <;> simp [Operator.text] at ho
  · exact ⟨a, hr.symm⟩

theorem exists_findOperator (op : Operator) (z literal : Text) :
    ∃ o l r, findOperator (z ++ (op.text ++ ' ' :: literal)) = some (o, l, r) := by
  cases hfind : findOperator (z ++ (op.text ++ ' ' :: literal)) with
  | some found => exact ⟨found.1, found.2.1, found.2.2, rfl⟩
  | none =>
    obtain ⟨l, r, hsplit, -⟩ := splitOnce_leftmost (operator_text_ne_nil op) z (' ' :: literal)
    have hnone := List.findSome?_eq_none_iff.mp hfind op (by cases op <;> simp [operators])
    rw [hsplit] at hnone
    cases hnone

/-- The binding of a text with more `!` than the value has plays no role. -/
theorem evaluates_both (host : Host) (order : Arrangement) {context context' : Fields}
    {y z : Text} {n : Nat} (hn : z.length < n)
    (hagree : ∀ x, x ≠ z → context.lookup x = context'.lookup x) (hy : ¬ opening <:+: y)
    (hcount : y.count '!' < z.count '!') : ∃ b,
      Evaluates host order context (y ++ comparedWith .eq (crosses n)) b ∧
      Evaluates host order context' (y ++ comparedWith .eq (crosses n)) b := by
  have hpos : 0 < n := by omega
  have hl := crosses_literal n
  have hne := crosses_ne_nil hpos
  induction hlen : y.length using Nat.strong_induction_on generalizing y with
  | _ k ih =>
    have hopen := not_opening_comparedWith .eq hl hy
    obtain ⟨z', hz'⟩ := trim_ends hne hl .eq y
    have htrim : trim (y ++ comparedWith .eq (crosses n)) ≠ [] := by
      rw [hz']
      simp
    by_cases hbang : (trim (y ++ comparedWith .eq (crosses n))).head? = some '!'
    · have hblank : trim y ≠ [] := by
        intro hb
        rw [trim_blank hne hl .eq hb] at hbang
        exact absurd hbang (by simp [Operator.text])
      obtain ⟨before, after, -, -, hsplit, hpasted⟩ := trim_pasted hne hl hblank
      obtain ⟨rest, hrest⟩ : ∃ rest, trim y = '!' :: rest := by
        rw [hpasted] at hbang
        cases hhead : trim y with
        | nil => exact absurd hhead hblank
        | cons c rest =>
          rw [hhead] at hbang
          exact ⟨rest, by rw [Option.some.inj hbang]⟩
      rw [hrest] at hsplit hpasted
      have hin : rest ++ after <:+: y := ⟨before ++ ['!'], [], by rw [hsplit]; simp⟩
      have hcy : (rest ++ after).count '!' ≤ y.count '!' := hin.sublist.count_le '!'
      have hshorter : (rest ++ after).length < k := by
        have := congrArg List.length hsplit
        simp only [List.length_append, List.length_cons] at this ⊢
        omega
      obtain ⟨b, hb, hb'⟩ := ih _ hshorter (fun h => hy (h.trans hin)) (by omega) rfl
      have hnegated : trim (y ++ comparedWith .eq (crosses n)) =
          '!' :: (rest ++ after ++ comparedWith .eq (crosses n)) := by
        rw [hpasted .eq]
        rfl
      exact ⟨!b, evaluates_negated hopen hnegated hb, evaluates_negated hopen hnegated hb'⟩
    · have hspace : ' ' ∈ trim (y ++ comparedWith .eq (crosses n)) := by
        rw [hz']
        simp
      obtain ⟨o, l, r, hfind⟩ := exists_findOperator .eq z' (crosses n)
      rw [← hz'] at hfind
      have hparts := splitOnce_eq_some (findOperator_split hfind)
      have hleft : trim l ≠ z := by
        intro he
        have hcl : l.count '!' ≤ (trim (y ++ comparedWith .eq (crosses n))).count '!' := by
          rw [hparts, List.count_append]
          omega
        have htail : (comparedWith .eq (crosses n)).count '!' = 0 := by
          refine List.count_eq_zero.mpr fun hm => ?_
          simp only [comparedWith, Operator.text, List.mem_cons, List.cons_append,
            List.nil_append] at hm
          simpa using List.eq_of_mem_replicate (by simpa using hm : '!' ∈ crosses n)
        rw [count_trim (by decide), List.count_append, htail, ← count_trim (by decide) l, he] at hcl
        omega
      have hright : trim r ≠ z := by
        intro he
        have hsuf : crosses n <:+ r := by
          refine suffix_of_split (o := o) (y := z' ++ (Operator.eq.text ++ [' '])) (l := l) ?_
          rw [← hparts, hz']
          simp
        have hx := hsuf.sublist.count_le 'x'
        have hcx : (crosses n).count 'x' = n := List.count_replicate_self
        rw [hcx, ← count_trim (by decide) r, he] at hx
        have := List.count_le_length (a := 'x') (l := z)
        omega
      have hsame : compareValues host (trim l) (trim r) o context =
          compareValues host (trim l) (trim r) o context' := by
        have hol : resolveOperand host (trim l) context = resolveOperand host (trim l) context' :=
          resolveOperand_congr (by rw [trim_trim]; exact hagree _ hleft)
        have hor : resolveOperand host (trim r) context = resolveOperand host (trim r) context' :=
          resolveOperand_congr (by rw [trim_trim]; exact hagree _ hright)
        rw [compareValues, compareValues, hol, hor]
      have hexpr := evaluates_expr host order context hopen htrim hbang
      have hexpr' := evaluates_expr host order context' hopen htrim hbang
      rw [evaluateExpr_of_operator host hspace hfind] at hexpr hexpr'
      rw [← hsame] at hexpr'
      exact ⟨_, hexpr, hexpr'⟩

include hhost in
/-- Behind a value that begins with `!` the rest of it is compared, so what the whole value is
bound to does not count. -/
theorem misread_bang (order : Arrangement) {key v : Text} {n : Nat}
    (hk : ∀ c ∈ key, isLiteralChar c = true) (hv : ¬ opening <:+: v)
    (hbang : (trim v).head? = some '!') (hn : v.length + key.length < n) :
    ∃ context : Fields, (context.map Prod.fst).Nodup ∧ context.lookup key = some (.str v) ∧
      context.lookup (crosses n) = none ∧
      ¬ Evaluates host order context (comparison key .eq (crosses n))
        (compareValues host (trim v) (crosses n) .eq context) := by
  have hpos : 0 < n := by omega
  have hl := crosses_literal n
  have hne := crosses_ne_nil hpos
  obtain ⟨rest, hrest⟩ : ∃ rest, trim v = '!' :: rest := by
    cases hhead : trim v with
    | nil =>
      rw [hhead] at hbang
      cases hbang
    | cons c rest =>
      rw [hhead] at hbang
      exact ⟨rest, by rw [Option.some.inj hbang]⟩
  have hlen := (trim_isInfix v).length_le
  have hkey : trim v ≠ key := by
    intro he
    have hm : '!' ∈ key := by rw [← he, hrest]; exact List.mem_cons_self
    exact not_mem_of_literal hk (by decide) hm
  have hopen := not_opening_comparedWith .eq hl hv
  obtain ⟨before, after, -, ha, hsplit, hpasted⟩ :=
    trim_pasted hne hl (v := v) (by rw [hrest]; simp)
  rw [hrest] at hsplit hpasted
  let unbound : Fields := [(key, .str v)]
  let bound : Fields := [(key, .str v), (trim v, .str (crosses n))]
  have hbound := lookup_bound (v := v) (t := crosses n) hkey
  have hunbound {s : Text} (hs : s ≠ key) : unbound.lookup s = none := by
    have hb : (s == key) = false := beq_eq_false_iff_ne.mpr hs
    simp [unbound, List.lookup, hb]
  have hagree (s : Text) (hs : s ≠ trim v) : unbound.lookup s = bound.lookup s := by
    refine Eq.trans ?_ (hbound s).symm
    by_cases he : s = key
    · simp [unbound, he]
    · rw [hunbound he, if_neg he, if_neg hs]
  have hin : rest ++ after <:+: v := ⟨before ++ ['!'], [], by rw [hsplit]; simp⟩
  have hcount : (rest ++ after).count '!' < (trim v).count '!' := by
    have hblank : after.count '!' = 0 := List.count_eq_zero.mpr fun hm => by
      have := ha '!' hm
      revert this
      decide
    rw [List.count_append, hblank, hrest, List.count_cons_self]
    omega
  obtain ⟨b, hb, hb'⟩ := evaluates_both host order (z := trim v) (n := n) (by omega) hagree
    (fun h => hv (h.trans hin)) hcount
  have hnegated : trim (v ++ comparedWith .eq (crosses n)) =
      '!' :: (rest ++ after ++ comparedWith .eq (crosses n)) := by
    rw [hpasted .eq]
    rfl
  have hcode := evaluates_negated hopen hnegated hb
  have hcode' := evaluates_negated hopen hnegated hb'
  have hun : (unbound.map Prod.fst).Nodup := by simp [unbound]
  have hbn : (bound.map Prod.fst).Nodup := by simpa [bound] using hkey.symm
  have hulookup : unbound.lookup key = some (.str v) := by simp [unbound]
  have hblookup : bound.lookup key = some (.str v) := (hbound key).trans (if_pos rfl)
  have hucross : unbound.lookup (crosses n) = none := hunbound (crosses_ne (by omega))
  have hbcross : bound.lookup (crosses n) = none := by
    refine (hbound _).trans ?_
    rw [if_neg (crosses_ne (s := key) (by omega)), if_neg (crosses_ne (s := trim v) (by omega))]
  have hmem : '!' ∈ trim v := by rw [hrest]; exact List.mem_cons_self
  obtain ⟨hp, hw⟩ := word_of_mem hhost hmem (by decide)
  have htt : trim (trim v) = trim v := trim_trim v
  have hnil : trim v ≠ [] := by rw [hrest]; simp
  have hfalse : compareValues host (trim v) (crosses n) .eq unbound = false := by
    obtain ⟨t, ht, htlen⟩ := resolveOperand_of_word (s := trim v) (v := v) (by rwa [htt])
      (by rwa [htt]) (by rwa [htt]) (fun j hj => by
        rw [htt, hunbound hkey] at hj
        cases hj)
    rw [htt] at htlen
    exact compare_crosses hhost hpos hucross ht (by omega)
  have htrue : compareValues host (trim v) (crosses n) .eq bound = true := by
    have hvalue : resolveOperand host (trim v) bound = .json (.str (crosses n)) := by
      have hlv : bound.lookup ('!' :: rest) = some (.str (crosses n)) := by
        rw [← hrest]
        exact (hbound _).trans (by rw [if_neg hkey, if_pos rfl])
      rw [resolveOperand, htt, hrest]
      simp only [hlv]
      rw [if_neg fun h => absurd h.1 (by decide)]
    rw [compareValues_of_str .eq (resolveOperand_crosses hhost hpos hbcross), hvalue]
    simp [Operator.holds, Operand.text, replacementText]
  have hlift {context : Fields} (hc : (context.map Prod.fst).Nodup)
      (hlook : context.lookup key = some (.str v)) {b : Bool}
      (h : Evaluates host order context (v ++ comparedWith .eq (crosses n)) b) :
      Evaluates host order context (comparison key .eq (crosses n)) b := by
    obtain ⟨fuel, hfuel⟩ := h
    exact ⟨fuel, by rw [evaluate_comparison host order hk hne hl hv hc hlook]; exact hfuel⟩
  by_cases hsame : (!b) = false
  · refine ⟨bound, hbn, hblookup, hbcross, fun hexpected => ?_⟩
    have hboth := (hlift hbn hblookup hcode').unique hexpected
    rw [htrue, hsame] at hboth
    cases hboth
  · refine ⟨unbound, hun, hulookup, hucross, fun hexpected => ?_⟩
    exact hsame (((hlift hun hulookup hcode).unique hexpected).trans hfalse)

end Misread

/-- A pasted value is compared as it is, in every context and with every literal, exactly when
it reads as an operand. The literals are made of the characters that `letter` accepts. -/
theorem comparison_iff {host : Host} (hhost : NumeralsOnly host) {letter : Char → Bool}
    (hx : letter 'x' = true) (hletter : ∀ c, letter c = true → isLiteralChar c = true)
    {key : Text} (hk : ∀ c ∈ key, isLiteralChar c = true) (order : Arrangement) {v : Text}
    (hv : ¬ opening <:+: v) :
    (∀ (context : Fields) (literal : Text), (context.map Prod.fst).Nodup →
      context.lookup key = some (.str v) → literal ≠ [] → (∀ c ∈ literal, letter c = true) →
      context.lookup literal = none →
      literal.map toAsciiLower ∉
        ["true".toList, "yes".toList, "1".toList, "false".toList, "no".toList, "0".toList] →
      Evaluates host order context (comparison key .eq literal)
        (compareValues host (trim v) literal .eq context) ∧
      Evaluates host order context (comparison key .ne literal)
        (!compareValues host (trim v) literal .eq context)) ↔ ReadsAsOperand v := by
  constructor
  · intro h
    let n := v.length + key.length + 5
    have hall (op : Operator) (hop : op = .eq ∨ op = .ne) {context : Fields}
        (hc : (context.map Prod.fst).Nodup) (hlookup : context.lookup key = some (.str v))
        (hcross : context.lookup (crosses n) = none) :
        Evaluates host order context (comparison key op (crosses n))
          (compareValues host (trim v) (crosses n) op context) := by
      have hboth := h context (crosses n) hc hlookup (crosses_ne_nil (by omega))
        (fun c hc => by rw [List.eq_of_mem_replicate hc]; exact hx) hcross (fun hm => by
          have hlong : 4 < ((crosses n).map toAsciiLower).length := by
            rw [List.length_map, length_crosses]
            omega
          have hfour : ∀ word ∈ ["true".toList, "yes".toList, "1".toList, "false".toList,
              "no".toList, "0".toList], 'x' ∉ word := by decide
          refine hfour _ hm (List.mem_map.mpr ⟨'x', ?_, by decide⟩)
          exact List.mem_replicate.mpr ⟨by omega, rfl⟩)
      obtain rfl | rfl := hop
      · exact hboth.1
      · rw [compareValues_ne]
        exact hboth.2
    have hblank : trim v ≠ [] := by
      intro hb
      obtain ⟨context, hc, hlookup, hcross, hno⟩ :=
        misread_blank hhost order hk hv hb (n := n) (by omega)
      exact hno (hall .ne (Or.inr rfl) hc hlookup hcross)
    have hbang : (trim v).head? ≠ some '!' := by
      intro hb
      obtain ⟨context, hc, hlookup, hcross, hno⟩ :=
        misread_bang hhost order hk hv hb (n := n) (by omega)
      exact hno (hall .eq (Or.inl rfl) hc hlookup hcross)
    have hoperator (op o : Operator) (hop : op = .eq ∨ op = .ne) (ho : o ∈ op :: triedBefore op)
        (hwrong : o = .ne ↔ op = .ne) (hfirst : ∀ o' ∈ triedBefore o, ¬ o'.text <:+: v) :
        ¬ o.text <:+: v := by
      intro hin
      obtain ⟨context, hc, hlookup, hcross, hno⟩ :=
        misread_operator hhost order hop hk hv hblank hbang ho hin hfirst hwrong (n := n) (by omega)
      exact hno (hall op hop hc hlookup hcross)
    have hge := hoperator .eq .ge (Or.inl rfl) (by simp [triedBefore]) (by simp)
      (by simp [triedBefore])
    have hle := hoperator .eq .le (Or.inl rfl) (by simp [triedBefore]) (by simp)
      (by simpa [triedBefore] using hge)
    have heq := hoperator .eq .eq (Or.inl rfl) (by simp [triedBefore]) (by simp)
      (by simpa [triedBefore] using ⟨hge, hle⟩)
    have hne := hoperator .ne .ne (Or.inr rfl) (by simp [triedBefore]) (by simp)
      (by simpa [triedBefore] using ⟨hge, hle, heq⟩)
    exact ⟨hblank, hbang, by simpa using ⟨hge, hle, heq, hne⟩⟩
  · intro hread context literal hc hlookup hne hlit _ _
    have hl : ∀ c ∈ literal, isLiteralChar c = true := fun c hcm => hletter c (hlit c hcm)
    refine ⟨evaluates_comparison (Or.inl rfl) hk hne hl hv hc hlookup hread, ?_⟩
    rw [← compareValues_ne]
    exact evaluates_comparison (Or.inr rfl) hk hne hl hv hc hlookup hread

/-- The digits as a number. -/
def wholeNumber (s : Text) : Option Nat :=
  if s ≠ [] ∧ s.all "0123456789".toList.contains then
    some (s.foldl (fun n c => 10 * n + (c.toNat - 48)) 0)
  else none

/-- Whole numbers without a sign. -/
def wholeNumbers : Host where
  F := Nat
  zero := 0
  cmp := compare
  parse := wholeNumber
  asF64 := wholeNumber
  print n := (toString n).toList
  debug s := '"' :: (s ++ ['"'])
  resolveItemsList v _ := .ok [v]

theorem wholeNumbers_numerals : NumeralsOnly wholeNumbers := by
  intro s f h c hc
  simp only [wholeNumbers, wholeNumber] at h
  split at h
  · rename_i hs
    have hdigit : c ∈ "0123456789".toList := by
      simpa using List.all_eq_true.mp hs.2 c hc
    have hsub := List.all_eq_true.mp
      (by decide : "0123456789".toList.all "0123456789+-.eE".toList.contains = true) c hdigit
    simpa using hsub
  · cases h

/-- A value with one of the operators that are looked for last. -/
theorem comparison_iff_greater :
    ReadsAsOperand "x > y".toList ∧ ∀ (context : Fields) (literal : Text), (context.map Prod.fst).Nodup →
      context.lookup "a".toList = some (.str "x > y".toList) → literal ≠ [] →
      (∀ c ∈ literal, isAsciiAlphanumeric c = true) → context.lookup literal = none →
      literal.map toAsciiLower ∉
        ["true".toList, "yes".toList, "1".toList, "false".toList, "no".toList, "0".toList] →
      Evaluates wholeNumbers .stored context (comparison "a".toList .eq literal)
        (compareValues wholeNumbers "x > y".toList literal .eq context) ∧
      Evaluates wholeNumbers .stored context (comparison "a".toList .ne literal)
        (!compareValues wholeNumbers "x > y".toList literal .eq context) := by
  have hletter (c : Char) (hc : isAsciiAlphanumeric c = true) : isLiteralChar c = true := by
    by_contra hno
    have hbad : isWhitespace c = true ∨ c ∈ "\x7b\x7d!<>=\"'".toList := by
      simpa [isLiteralChar, imp_iff_not_or] using hno
    obtain hws | hm := hbad
    · simp only [isAsciiAlphanumeric, isAsciiAlphabetic, isWhitespace, Bool.or_eq_true,
        Bool.and_eq_true, decide_eq_true_eq, beq_iff_eq] at hc hws
      omega
    · have hall := List.all_eq_true.mp (by decide :
        "\x7b\x7d!<>=\"'".toList.all (fun d => !isAsciiAlphanumeric d) = true) c hm
      rw [hc] at hall
      cases hall
  have hread : ReadsAsOperand "x > y".toList := ⟨by decide, by decide, by decide⟩
  have hkey := List.all_eq_true.mp (by decide : "a".toList.all isLiteralChar = true)
  exact ⟨hread, (comparison_iff wholeNumbers_numerals (by decide) hletter hkey .stored
    (by decide)).mpr hread⟩

/-- A value that begins with `!` is negated: it equals a literal that it is not. -/
theorem comparison_negated :
    let context : Fields := [("a".toList, .str "!x".toList)]
    compareValues wholeNumbers (trim "!x".toList) "y".toList .eq context = false ∧
    Evaluates wholeNumbers .stored context (comparison "a".toList .eq "y".toList) true := by
  intro context
  exact ⟨by decide, 3, by decide⟩

end NemesisBot.Engine
