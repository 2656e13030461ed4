import NemesisBot.Security.Command

/-! Which token lists survive being joined with spaces and read again, and how any token
list can be written as one command of one segment. -/
namespace NemesisBot.Command
open NemesisBot.Strings

def isQuote (c : Char) : Bool := c = '\'' || c = '"'

/-- A token that needs no quoting. -/
def Plain (t : Text) : Prop := t ≠ [] ∧ ∀ c ∈ t, isWhitespace c = false ∧ isQuote c = false

theorem tokenizeFrom_space (cur : Text) (rest : List Char) :
    tokenizeFrom cur false false true (' ' :: rest) = cur :: tokenizeCommand rest := by
  have hw : isWhitespace ' ' = true := by decide
  simp [tokenizeFrom, tokenizeCommand, hw]

theorem tokenizeFrom_char {c : Char} (hw : isWhitespace c = false) (hq : isQuote c = false)
    (cur : Text) (has : Bool) (rest : List Char) :
    tokenizeFrom cur false false has (c :: rest) =
      tokenizeFrom (cur ++ [c]) false false true rest := by
  simp only [isQuote, Bool.or_eq_false_iff, decide_eq_false_iff_not] at hq
  simp [tokenizeFrom, hw, hq]

theorem tokenizeFrom_chars {t : Text} (h : ∀ c ∈ t, isWhitespace c = false ∧ isQuote c = false)
    (cur : Text) (rest : List Char) :
    tokenizeFrom cur false false true (t ++ rest) =
      tokenizeFrom (cur ++ t) false false true rest := by
  induction t generalizing cur with
  | nil => simp
  | cons c t ih =>
    have hc := h c (by simp)
    rw [List.cons_append, tokenizeFrom_char hc.1 hc.2, ih (fun x hx => h x (by simp [hx]))]
    simp

theorem tokenizeFrom_plain {t : Text} (h : Plain t) (rest : List Char) :
    tokenizeFrom [] false false false (t ++ rest) = tokenizeFrom t false false true rest := by
  obtain ⟨hne, hc⟩ := h
  cases t with
  | nil => exact absurd rfl hne
  | cons c t =>
    have h0 := hc c (by simp)
    rw [List.cons_append, tokenizeFrom_char h0.1 h0.2,
      tokenizeFrom_chars fun x hx => hc x (by simp [hx])]
    rfl

/-- Plain tokens are read back as they were joined. -/
theorem tokenize_join_plain {ts : List Text} (h : ∀ t ∈ ts, Plain t) :
    tokenizeCommand (join space ts) = ts := by
  induction ts with
  | nil => rfl
  | cons t ts ih =>
    have ht := h t (by simp)
    cases ts with
    | nil =>
      have := tokenizeFrom_plain ht []
      simpa [tokenizeCommand, join, tokenizeFrom] using this
    | cons u us =>
      have hi := ih fun x hx => h x (by simp [hx])
      rw [join_cons (List.cons_ne_nil u us), tokenizeCommand, List.append_assoc,
        tokenizeFrom_plain ht]
      exact (tokenizeFrom_space t _).trans (congrArg (List.cons t) hi)

/-! Reading removes quotes: the first one always opens and is dropped. -/

def quoteCount (t : Text) : Nat := t.countP isQuote

def quoteSum (ts : List Text) : Nat := (ts.map quoteCount).sum

@[simp] theorem quoteCount_nil : quoteCount [] = 0 := rfl

@[simp] theorem quoteSum_cons (t : Text) (ts : List Text) :
    quoteSum (t :: ts) = quoteCount t + quoteSum ts := by simp [quoteSum]

theorem quoteCount_cons (c : Char) (t : Text) :
    quoteCount (c :: t) = quoteCount t + if isQuote c then 1 else 0 := by
  simp [quoteCount, List.countP_cons]

theorem quoteCount_append (s t : Text) : quoteCount (s ++ t) = quoteCount s + quoteCount t := by
  simp [quoteCount]

theorem quoteSum_tokenizeFrom_le (l : List Char) (cur : Text) (s d has : Bool) :
    quoteSum (tokenizeFrom cur s d has l) ≤ quoteCount cur + quoteCount l := by
  induction l generalizing cur s d has with
  | nil =>
    rw [tokenizeFrom]
    split <;> simp [quoteSum]
  | cons c l ih =>
    have hc : quoteCount l ≤ quoteCount (c :: l) := by
      rw [quoteCount_cons]
      omega
    have hpush : quoteCount (cur ++ [c]) + quoteCount l = quoteCount cur + quoteCount (c :: l) := by
      simp only [quoteCount_append, quoteCount_cons, quoteCount_nil]
      omega
    simp only [tokenizeFrom]
    split
    · exact (ih cur (!s) d true).trans (by omega)
    split
    · exact (ih cur s (!d) true).trans (by omega)
    split
    · split
      · have hi := ih [] s d false
        rw [quoteSum_cons]
        rw [quoteCount_nil] at hi
        omega
      · exact (ih cur s d has).trans (by omega)
    · exact (ih (cur ++ [c]) s d true).trans (by omega)

theorem quoteSum_tokenizeFrom_lt (l : List Char) (cur : Text) (has : Bool)
    (h : 0 < quoteCount l) :
    quoteSum (tokenizeFrom cur false false has l) < quoteCount cur + quoteCount l := by
  induction l generalizing cur has with
  | nil => simp [quoteCount] at h
  | cons c l ih =>
    by_cases hq : isQuote c = true
    · have hc : quoteCount (c :: l) = quoteCount l + 1 := by simp [quoteCount_cons, hq]
      have hle (s d : Bool) := quoteSum_tokenizeFrom_le l cur s d true
      simp only [isQuote, Bool.or_eq_true, decide_eq_true_eq] at hq
      obtain rfl | rfl := hq
      · have := hle true false
        simp [tokenizeFrom]
        omega
      · have := hle false true
        simp [tokenizeFrom]
        omega
    · have hq' : isQuote c = false := by simpa using hq
      have hc : quoteCount (c :: l) = quoteCount l := by simp [quoteCount_cons, hq']
      rw [hc] at h ⊢
      by_cases hw : isWhitespace c = true
      · simp only [isQuote, Bool.or_eq_false_iff, decide_eq_false_iff_not] at hq'
        by_cases hs : (has || decide (cur ≠ [])) = true
        · have hi := ih [] false h
          simp only [tokenizeFrom, hq', hw, hs]
          rw [quoteCount_nil] at hi
          simp
          omega
        · simp only [tokenizeFrom, hq', hw, hs]
          simpa using ih cur has h
      · rw [tokenizeFrom_char (by simpa using hw) hq']
        have hi := ih (cur ++ [c]) true h
        simpa [quoteCount_append, quoteCount_cons, hq'] using hi

theorem quoteCount_join (ts : List Text) : quoteCount (join space ts) = quoteSum ts := by
  induction ts with
  | nil => rfl
  | cons t ts ih =>
    cases ts with
    | nil => simp [join, quoteSum]
    | cons u us =>
      have hsp : quoteCount space = 0 := by decide
      rw [join_cons (List.cons_ne_nil u us), quoteCount_append, quoteCount_append, ih, hsp]
      simp

/-- Without quotes every token read is plain. -/
theorem plain_of_mem_tokenizeFrom {l : List Char} {cur : Text} {has : Bool}
    (hl : quoteCount l = 0) (hcur : ∀ c ∈ cur, isWhitespace c = false ∧ isQuote c = false)
    (hhas : has = true → cur ≠ []) :
    ∀ t ∈ tokenizeFrom cur false false has l, Plain t := by
  induction l generalizing cur has with
  | nil =>
    intro t ht
    rw [tokenizeFrom] at ht
    split at ht
    · rename_i hs
      obtain rfl := List.mem_singleton.mp ht
      refine ⟨?_, hcur⟩
      cases has with
      | true => exact hhas rfl
      | false => simpa using hs
    · cases ht
  | cons c l ih =>
    have hq : isQuote c = false ∧ quoteCount l = 0 := by
      rw [quoteCount_cons] at hl
      cases h : isQuote c
      · simpa [h] using hl
      · simp [h] at hl
    by_cases hw : isWhitespace c = true
    · have hq' := hq.1
      simp only [isQuote, Bool.or_eq_false_iff, decide_eq_false_iff_not] at hq'
      by_cases hs : (has || decide (cur ≠ [])) = true
      · simp only [tokenizeFrom, hq', hw, hs]
        intro t ht
        simp only [Bool.not_false, Bool.and_true, decide_false, Bool.false_eq_true, if_false,
          Bool.and_self, if_true, List.mem_cons] at ht
        obtain rfl | ht := ht
        · refine ⟨?_, hcur⟩
          cases has with
          | true => exact hhas rfl
          | false => simpa using hs
        · exact ih hq.2 (by simp) (by simp) t ht
      · simp only [tokenizeFrom, hq', hw, hs]
        simpa using ih hq.2 hcur hhas
    · rw [tokenizeFrom_char (by simpa using hw) hq.1]
      refine ih hq.2 ?_ (by simp)
      intro x hx
      obtain hx | hx := List.mem_append.mp hx
      · exact hcur x hx
      · obtain rfl := List.mem_singleton.mp hx
        exact ⟨by simpa using hw, hq.1⟩

theorem plain_of_mem_tokenize {l : List Char} (hl : quoteCount l = 0) :
    ∀ t ∈ tokenizeCommand l, Plain t :=
  plain_of_mem_tokenizeFrom hl (by simp) (by simp)

/-- A token list survives the round trip exactly when all its tokens are plain. -/
theorem tokenize_join_iff (ts : List Text) :
    tokenizeCommand (join space ts) = ts ↔ ∀ t ∈ ts, Plain t := by
  refine ⟨fun h => ?_, tokenize_join_plain⟩
  have hz : quoteCount (join space ts) = 0 := by
    by_contra hne
    have hlt := quoteSum_tokenizeFrom_lt (join space ts) [] false (by omega)
    rw [← tokenizeCommand, h, quoteCount_join] at hlt
    simp at hlt
  rw [← h]
  exact plain_of_mem_tokenize hz

theorem tokenizeFrom_star {l : List Char} {cur : Text} {has : Bool}
    (hl : quoteCount l = 0) (hhas : has = true → cur ≠ []) :
    tokenizeFrom cur false false has (l ++ starSuffix) =
      tokenizeFrom cur false false has l ++ [['*']] := by
  induction l generalizing cur has with
  | nil =>
    have hw : isWhitespace ' ' = true := by decide
    have hw' : isWhitespace '*' = false := by decide
    by_cases hs : has = true ∨ ¬cur = []
    · simp [starSuffix, tokenizeFrom, hw, hw', hs]
    · obtain ⟨rfl, hc⟩ : has = false ∧ cur = [] := by simpa using hs
      subst hc
      simp [starSuffix, tokenizeFrom, hw, hw']
  | cons c l ih =>
    have hq : isQuote c = false ∧ quoteCount l = 0 := by
      rw [quoteCount_cons] at hl
      cases h : isQuote c
      · simpa [h] using hl
      · simp [h] at hl
    by_cases hw : isWhitespace c = true
    · have hq' := hq.1
      simp only [isQuote, Bool.or_eq_false_iff, decide_eq_false_iff_not] at hq'
      by_cases hs : (has || decide (cur ≠ [])) = true
      · have hi : tokenizeFrom [] false false false (l ++ starSuffix) =
            tokenizeFrom [] false false false l ++ [['*']] := ih hq.2 (by simp)
        simp only [List.cons_append, tokenizeFrom, hq', hw, hs]
        simpa using hi
      · have hi := ih hq.2 hhas
        simp only [List.cons_append, tokenizeFrom, hq', hw, hs]
        simpa using hi
    · have hw' : isWhitespace c = false := by simpa using hw
      rw [List.cons_append, tokenizeFrom_char hw' hq.1, tokenizeFrom_char hw' hq.1]
      exact ih hq.2 (by simp)

theorem tokenize_star {l : List Char} (hl : quoteCount l = 0) :
    tokenizeCommand (l ++ starSuffix) = tokenizeCommand l ++ [['*']] :=
  tokenizeFrom_star hl (by simp)

/-! Every token list is the reading of some command: quote each character by the other
kind of quote. -/

def quoteChar (c : Char) : Text := if c = '"' then ['\'', c, '\''] else ['"', c, '"']

def quoteToken (t : Text) : Text := if t = [] then ['"', '"'] else t.flatMap quoteChar

def quoteCommand (ts : List Text) : Text := join space (ts.map quoteToken)

theorem tokenizeFrom_quoteChar (c : Char) (cur : Text) (has : Bool) (rest : List Char) :
    tokenizeFrom cur false false has (quoteChar c ++ rest) =
      tokenizeFrom (cur ++ [c]) false false true rest := by
  have hw1 : isWhitespace '"' = false := by decide
  have hw2 : isWhitespace '\'' = false := by decide
  by_cases hc : c = '"'
  · subst hc
    simp [quoteChar, tokenizeFrom]
  · by_cases hc' : c = '\''
    · subst hc'
      simp [quoteChar, tokenizeFrom]
    · simp [quoteChar, tokenizeFrom, hc, hc']

theorem tokenizeFrom_quoteChars (t : Text) (cur : Text) (rest : List Char) :
    tokenizeFrom cur false false true (t.flatMap quoteChar ++ rest) =
      tokenizeFrom (cur ++ t) false false true rest := by
  induction t generalizing cur with
  | nil => simp
  | cons c t ih =>
    rw [List.flatMap_cons, List.append_assoc, tokenizeFrom_quoteChar, ih]
    simp

theorem tokenizeFrom_quoteToken (t : Text) (rest : List Char) :
    tokenizeFrom [] false false false (quoteToken t ++ rest) =
      tokenizeFrom t false false true rest := by
  cases t with
  | nil => simp [quoteToken, tokenizeFrom]
  | cons c t =>
    rw [quoteToken, if_neg (List.cons_ne_nil c t), List.flatMap_cons, List.append_assoc,
      tokenizeFrom_quoteChar, tokenizeFrom_quoteChars]
    rfl

theorem tokenize_quoteCommand (ts : List Text) : tokenizeCommand (quoteCommand ts) = ts := by
  induction ts with
  | nil => rfl
  | cons t ts ih =>
    cases ts with
    | nil =>
      have := tokenizeFrom_quoteToken t []
      simpa [tokenizeCommand, quoteCommand, join, tokenizeFrom] using this
    | cons u us =>
      rw [quoteCommand, List.map_cons, join_cons (by simp), tokenizeCommand, List.append_assoc,
        tokenizeFrom_quoteToken]
      exact (tokenizeFrom_space t _).trans (congrArg (List.cons t) ih)

theorem scanFrom_quoteChar (c : Char) (cur : Text) (prev : Option Char) (rest : List Char) :
    ∃ prev', scanFrom true cur false false prev false (quoteChar c ++ rest) =
      scanFrom true (cur ++ quoteChar c) false false prev' false rest := by
  by_cases hc : c = '"'
  · subst hc
    exact ⟨some '\'', by simp [quoteChar, scanFrom]⟩
  · refine ⟨some '"', ?_⟩
    by_cases hc' : c = '\''
    · subst hc'
      simp [quoteChar, scanFrom]
    · simp [quoteChar, scanFrom, hc, hc']

theorem scanFrom_quoteChars (t : Text) (cur : Text) (prev : Option Char) (rest : List Char) :
    ∃ prev', scanFrom true cur false false prev false (t.flatMap quoteChar ++ rest) =
      scanFrom true (cur ++ t.flatMap quoteChar) false false prev' false rest := by
  induction t generalizing cur prev with
  | nil => exact ⟨prev, by simp⟩
  | cons c t ih =>
    obtain ⟨p, hp⟩ := scanFrom_quoteChar c cur prev (t.flatMap quoteChar ++ rest)
    obtain ⟨q, hq⟩ := ih (cur ++ quoteChar c) p
    refine ⟨q, ?_⟩
    rw [List.flatMap_cons, List.append_assoc, hp, hq, List.append_assoc]

theorem scanFrom_quoteToken (t : Text) (cur : Text) (prev : Option Char) (rest : List Char) :
    ∃ prev', scanFrom true cur false false prev false (quoteToken t ++ rest) =
      scanFrom true (cur ++ quoteToken t) false false prev' false rest := by
  cases t with
  | nil => exact ⟨some '"', by simp [quoteToken, scanFrom]⟩
  | cons c t =>
    rw [quoteToken, if_neg (List.cons_ne_nil c t)]
    exact scanFrom_quoteChars (c :: t) cur prev rest

theorem scanFrom_quoteCommand (ts : List Text) (cur : Text) (prev : Option Char) :
    scanFrom true cur false false prev false (quoteCommand ts) =
      ([cur ++ quoteCommand ts], true) := by
  induction ts generalizing cur prev with
  | nil => simp [quoteCommand, join, scanFrom]
  | cons t ts ih =>
    cases ts with
    | nil =>
      obtain ⟨p, hp⟩ := scanFrom_quoteToken t cur prev []
      simpa [quoteCommand, join, scanFrom] using hp
    | cons u us =>
      have hcons : quoteCommand (t :: u :: us) =
          quoteToken t ++ ' ' :: quoteCommand (u :: us) := by
        simp [quoteCommand, join, space]
      obtain ⟨p, hp⟩ := scanFrom_quoteToken t cur prev (' ' :: quoteCommand (u :: us))
      have hsp : scanFrom true (cur ++ quoteToken t) false false p false
          (' ' :: quoteCommand (u :: us)) =
          scanFrom true (cur ++ quoteToken t ++ [' ']) false false (some ' ') false
            (quoteCommand (u :: us)) := by simp [scanFrom]
      rw [hcons, hp, hsp, ih]
      simp

theorem quoteChar_ends (c : Char) :
    ∃ q m, isWhitespace q = false ∧ quoteChar c = q :: m ++ [q] := by
  by_cases hc : c = '"'
  · exact ⟨'\'', [c], by decide, by simp [quoteChar, hc]⟩
  · exact ⟨'"', [c], by decide, by simp [quoteChar, hc]⟩

theorem quoteToken_head (t : Text) : ∃ q m, isWhitespace q = false ∧ quoteToken t = q :: m := by
  cases t with
  | nil => exact ⟨'"', ['"'], by decide, rfl⟩
  | cons c t =>
    obtain ⟨q, m, hq, hm⟩ := quoteChar_ends c
    refine ⟨q, m ++ [q] ++ t.flatMap quoteChar, hq, ?_⟩
    simp [quoteToken, hm]

theorem quoteToken_last (t : Text) : ∃ q m, isWhitespace q = false ∧ quoteToken t = m ++ [q] := by
  obtain rfl | ⟨t, c, rfl⟩ := List.eq_nil_or_concat t
  · exact ⟨'"', ['"'], by decide, rfl⟩
  · obtain ⟨q, m, hq, hm⟩ := quoteChar_ends c
    refine ⟨q, t.flatMap quoteChar ++ q :: m, hq, ?_⟩
    simp [quoteToken, hm]

theorem trim_quoteCommand {ts : List Text} (h : ts ≠ []) :
    trim (quoteCommand ts) = quoteCommand ts := by
  have hstart : trimStart (quoteCommand ts) = quoteCommand ts := by
    cases ts with
    | nil => exact absurd rfl h
    | cons t ts =>
      obtain ⟨q, m, hq, hm⟩ := quoteToken_head t
      obtain ⟨r, hr⟩ : ∃ r, quoteCommand (t :: ts) = q :: r := by
        cases ts with
        | nil => exact ⟨m, by simp [quoteCommand, join, hm]⟩
        | cons u us =>
          exact ⟨m ++ space ++ quoteCommand (u :: us), by simp [quoteCommand, join, hm]⟩
      rw [hr, trimStart_of_head hq]
  obtain rfl | ⟨ts, t, rfl⟩ := List.eq_nil_or_concat ts
  · exact absurd rfl h
  · obtain ⟨q, m, hq, hm⟩ := quoteToken_last t
    obtain ⟨r, hr⟩ : ∃ r, quoteCommand (ts ++ [t]) = r ++ [q] := by
      by_cases hts : ts = []
      · exact ⟨m, by simp [hts, quoteCommand, join, hm]⟩
      · refine ⟨quoteCommand ts ++ space ++ m, ?_⟩
        rw [quoteCommand, List.map_append, List.map_singleton, join_concat (by simpa using hts), hm]
        simp [quoteCommand]
    rw [trim, hstart, List.concat_eq_append, hr, trimEnd_of_last hq]

/-- A fully quoted command is one segment. -/
theorem commandSegments_quoteCommand {ts : List Text} (h : ts ≠ []) :
    commandSegments (quoteCommand ts) = [quoteCommand ts] := by
  have hne : quoteCommand ts ≠ [] := by
    intro he
    have := tokenize_quoteCommand ts
    rw [he] at this
    exact h this.symm
  have hscan := scanFrom_quoteCommand ts [] none
  rw [List.nil_append] at hscan
  simp [commandSegments, scanSegments, hscan, finishSegments, trim_quoteCommand h, hne, dedup]

end NemesisBot.Command
