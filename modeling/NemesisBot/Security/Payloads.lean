import NemesisBot.Security.Normalized

/-! Which code, handed to an interpreter on the command line, the extraction finds. -/
namespace NemesisBot.Matcher
open NemesisBot.Strings NemesisBot.Words

/-- The flags with which this token hands code to an interpreter. -/
def interpreterFlags (token : Text) : Option (List Text) :=
  (wrappers.find? fun (bin, _) => bin == binKey token).map Prod.snd

/-- An interpreter in these tokens and none of its flags behind it. -/
def OpensWith (flags : List Text) (front : List Text) : Prop :=
  ∃ before token inner, front = before ++ token :: inner ∧
    interpreterFlags token = some flags ∧ ∀ t ∈ inner, t ∉ flags

/-- The pieces of the command between blanks, cut at the first flag of an interpreter. -/
def Flagged (n : Text) (front : List Text) (flag : Text) (back : List Text) : Prop :=
  n.splitOn ' ' = front ++ flag :: back ∧ ∃ flags, OpensWith flags front ∧ flag ∈ flags

/-- The text of the pieces behind the flag. -/
def behind (back : List Text) : Text := back.flatMap (' ' :: ·)

def ahead (front : List Text) : Text := front.flatMap (· ++ [' '])

/-- The bytes of the tokens with one blank each. -/
def span (ts : List Text) : Nat := (ts.map fun t => byteLen t + 1).sum

/-- The end `v` of the command begins as many bytes before the end of the flag as there are
empty pieces in front of the flag. -/
def Starts (n : Text) (front : List Text) (flag v : Text) : Prop :=
  ∃ u, n = u ++ v ∧ byteLen u + front.count [] = byteLen (ahead front ++ flag)

theorem span_append (s t : List Text) : span (s ++ t) = span s + span t := by
  simp [span]

/-- Empty pieces take one byte each. -/
theorem span_pieces (ps : List Text) :
    span (ps.filter (· ≠ [])) + ps.count [] = byteLen (ahead ps) := by
  induction ps with
  | nil => rfl
  | cons t ps ih =>
    have hcons : byteLen (ahead (t :: ps)) = byteLen t + 1 + byteLen (ahead ps) := by
      rw [ahead, List.flatMap_cons, byteLen_append, byteLen_append]
      rfl
    by_cases ht : t = []
    · subst ht
      rw [List.filter_cons_of_neg (by simp), List.count_cons_self, hcons]
      simp only [byteLen, List.map_nil, List.sum_nil]
      rw [byteLen] at ih
      omega
    · rw [List.filter_cons_of_pos (by simpa using ht), List.count_cons_of_ne ht, hcons, span,
        List.map_cons, List.sum_cons, ← span]
      omega

theorem pieces_eq {n flag : Text} {front back : List Text}
    (h : n.splitOn ' ' = front ++ flag :: back) : n = ahead front ++ flag ++ behind back := by
  have hback : ∀ t ts, [' '].intercalate (t :: ts) = t ++ behind ts := by
    intro t ts
    induction ts generalizing t with
    | nil => simp [behind]
    | cons s ts ih => simp [behind, ih]
  have hall : ∀ ts, [' '].intercalate (ts ++ flag :: back) =
      ahead ts ++ flag ++ behind back := by
    intro ts
    induction ts with
    | nil => exact hback flag back
    | cons t ts ih =>
      rw [List.cons_append, List.intercalate_cons_of_ne_nil (by simp), ih]
      simp [ahead]
  rw [← hall, ← h, List.intercalate_splitOn]

theorem flags_nonempty {token : Text} {flags : List Text}
    (h : interpreterFlags token = some flags) : [] ∉ flags := by
  obtain ⟨⟨bin, fs⟩, hfind, rfl⟩ := Option.map_eq_some_iff.mp h
  have hall : ∀ e ∈ wrappers, [] ∉ e.2 := by decide
  exact hall _ (List.mem_of_find?_eq_some hfind)

theorem interpreter_nonempty {token : Text} {flags : List Text}
    (h : interpreterFlags token = some flags) : token ≠ [] := by
  rintro rfl
  have hnone : interpreterFlags [] = none := by decide
  rw [hnone] at h
  cases h

/-- Empty pieces are neither interpreters nor flags. -/
theorem opensWith_filter {flags front : List Text} :
    OpensWith flags (front.filter (· ≠ [])) ↔ OpensWith flags front := by
  constructor
  · rintro ⟨before, token, inner, he, htoken, hinner⟩
    obtain ⟨ps, qs, rfl, hps, hqs⟩ := List.filter_eq_append_iff.mp he
    obtain ⟨es, rs, rfl, hes, -, hrs⟩ := List.filter_eq_cons_iff.mp hqs
    refine ⟨ps ++ es, token, rs, by simp, htoken, fun t ht hf => ?_⟩
    by_cases hnil : t = []
    · exact flags_nonempty htoken (hnil ▸ hf)
    · refine hinner t ?_ hf
      rw [← hrs, List.mem_filter]
      exact ⟨ht, by simpa using hnil⟩
  · rintro ⟨before, token, inner, rfl, htoken, hinner⟩
    refine ⟨before.filter (· ≠ []), token, inner.filter (· ≠ []), ?_, htoken, fun t ht =>
      hinner t (List.mem_of_mem_filter ht)⟩
    rw [List.filter_append, List.filter_cons_of_pos]
    simpa using interpreter_nonempty htoken

/-! The token loop, read as cuts of the tokens at a flag. -/

theorem find_withOffsets {flags : List Text} {k o : Nat} {ts : List Text} {flag : Text} :
    (withOffsets k ts).find? (fun (t, _) => flags.contains t) = some (flag, o) ↔
      ∃ inner back, ts = inner ++ flag :: back ∧ (∀ t ∈ inner, t ∉ flags) ∧ flag ∈ flags ∧
        o = k + span inner := by
  induction ts generalizing k with
  | nil => simp [withOffsets]
  | cons t ts ih =>
    by_cases ht : t ∈ flags
    · rw [withOffsets, List.find?_cons_of_pos (by simpa using ht), Option.some.injEq,
        Prod.mk.injEq]
      constructor
      · rintro ⟨rfl, rfl⟩
        exact ⟨[], ts, rfl, by simp, ht, rfl⟩
      · rintro ⟨inner, back, he, hinner, -, ho⟩
        cases inner with
        | nil => exact ⟨(List.cons.inj he).1, ho.symm⟩
        | cons s inner =>
          obtain ⟨rfl, -⟩ := List.cons.inj he
          exact absurd ht (hinner t List.mem_cons_self)
    · rw [withOffsets, List.find?_cons_of_neg (by simpa using ht), ih]
      constructor
      · rintro ⟨inner, back, rfl, hinner, hflag, rfl⟩
        refine ⟨t :: inner, back, rfl, List.forall_mem_cons.mpr ⟨ht, hinner⟩, hflag, ?_⟩
        simp only [span, List.map_cons, List.sum_cons]
        omega
      · rintro ⟨inner, back, he, hinner, hflag, rfl⟩
        cases inner with
        | nil => exact absurd hflag ((List.cons.inj he).1 ▸ ht)
        | cons s inner =>
          obtain ⟨rfl, rfl⟩ := List.cons.inj he
          refine ⟨inner, back, rfl, fun u hu => hinner u (List.mem_cons_of_mem t hu), hflag, ?_⟩
          simp only [span, List.map_cons, List.sum_cons]
          omega

theorem payloadAfter_eq_some {n s : Text} {flags : List Text} {k : Nat} {ts : List Text} :
    payloadAfter n flags (withOffsets k ts) = some s ↔
      ∃ inner flag back v, ts = inner ++ flag :: back ∧ (∀ t ∈ inner, t ∉ flags) ∧
        flag ∈ flags ∧ sliceFrom (k + span inner + byteLen flag) n = some v ∧ trim v ≠ [] ∧
        s = trim v := by
  unfold payloadAfter
  constructor
  · intro h
    split at h
    · cases h
    · rename_i flag o hfind
      obtain ⟨inner, back, hts, hinner, hflag, rfl⟩ := find_withOffsets.mp hfind
      split at h
      · cases h
      · rename_i v hv
        split at h
        · cases h
        · rename_i hne
          exact ⟨inner, flag, back, v, hts, hinner, hflag, hv, hne, (Option.some.inj h).symm⟩
  · rintro ⟨inner, flag, back, v, hts, hinner, hflag, hv, hne, rfl⟩
    have hfind : (withOffsets k ts).find? (fun (t, _) => flags.contains t) =
        some (flag, k + span inner) :=
      find_withOffsets.mpr ⟨inner, back, hts, hinner, hflag, rfl⟩
    simp only [hfind, hv, if_neg hne]

theorem mem_payloadsFrom_cons {n s token : Text} {k : Nat} {later : List (Text × Nat)} :
    s ∈ payloadsFrom n ((token, k) :: later) ↔
      (∃ flags, interpreterFlags token = some flags ∧ payloadAfter n flags later = some s) ∨
        s ∈ payloadsFrom n later := by
  unfold interpreterFlags
  rw [payloadsFrom]
  split
  · rename_i hnone
    simp [hnone]
  · rename_i bin flags hsome
    simp only [hsome, Option.map_some, Option.some.injEq, exists_eq_left']
    split
    · rename_i hnone
      simp [hnone]
    · rename_i payload hpay
      rw [hpay, List.mem_cons, Option.some.injEq, eq_comm]

theorem mem_payloadsFrom {n s : Text} {k : Nat} {ts : List Text} :
    s ∈ payloadsFrom n (withOffsets k ts) ↔
      ∃ front flag back flags v, ts = front ++ flag :: back ∧ OpensWith flags front ∧
        flag ∈ flags ∧ sliceFrom (k + span front + byteLen flag) n = some v ∧ trim v ≠ [] ∧
        s = trim v := by
  induction ts generalizing k with
  | nil => simp [withOffsets, payloadsFrom]
  | cons t ts ih =>
    have hspan : ∀ front, k + (byteLen t + 1) + span front = k + span (t :: front) := by
      intro front
      rw [span, span, List.map_cons, List.sum_cons]
      omega
    rw [withOffsets, mem_payloadsFrom_cons, ih]
    simp only [payloadAfter_eq_some, hspan]
    constructor
    · rintro (⟨flags, htoken, inner, flag, back, v, rfl, hinner, hflag, hrest⟩ |
        ⟨front, flag, back, flags, v, rfl, ⟨before, token, inner, rfl, hopen⟩, hflag, hrest⟩)
      · exact ⟨t :: inner, flag, back, flags, v, rfl, ⟨[], t, inner, rfl, htoken, hinner⟩, hflag,
          hrest⟩
      · exact ⟨t :: (before ++ token :: inner), flag, back, flags, v, rfl,
          ⟨t :: before, token, inner, rfl, hopen⟩, hflag, hrest⟩
    · rintro ⟨front, flag, back, flags, v, he, ⟨before, token, inner, rfl, htoken, hinner⟩, hflag,
        hrest⟩
      cases before with
      | nil =>
        obtain ⟨rfl, rfl⟩ := List.cons.inj he
        exact .inl ⟨flags, htoken, inner, flag, back, v, rfl, hinner, hflag, hrest⟩
      | cons b before =>
        obtain ⟨rfl, rfl⟩ := List.cons.inj he
        exact .inr ⟨before ++ token :: inner, flag, back, flags, v, rfl,
          ⟨before, token, inner, rfl, htoken, hinner⟩, hflag, hrest⟩

/-- A payload is what stands behind the presumed end of a flag. -/
theorem mem_payloads {n s : Text} : s ∈ extractInterpreterPayloads n ↔
    ∃ front flag back v, Flagged n front flag back ∧ Starts n front flag v ∧ trim v ≠ [] ∧
      s = trim v := by
  have hstart : ∀ (front : List Text) (flag v : Text),
      sliceFrom (0 + span (front.filter (· ≠ [])) + byteLen flag) n = some v ↔
        Starts n front flag v := by
    intro front flag v
    have hspan := span_pieces front
    rw [sliceFrom_eq_some_iff]
    refine exists_congr fun u => and_congr_right fun _ => ?_
    rw [byteLen_append]
    omega
  rw [extractInterpreterPayloads, mem_payloadsFrom]
  constructor
  · rintro ⟨tokens, flag, rest, flags, v, he, hopen, hflag, hv, hrest⟩
    obtain ⟨ps, qs, hn, rfl, hqs⟩ := List.filter_eq_append_iff.mp he
    obtain ⟨es, back, rfl, hes, -, -⟩ := List.filter_eq_cons_iff.mp hqs
    have hfront : (ps ++ es).filter (· ≠ []) = ps.filter (· ≠ []) := by
      rw [List.filter_append, List.filter_eq_nil_iff.mpr hes, List.append_nil]
    refine ⟨ps ++ es, flag, back, v, ⟨by rw [hn, List.append_assoc], flags, ?_, hflag⟩, ?_, hrest⟩
    · rw [← opensWith_filter, hfront]
      exact hopen
    · rw [← hstart, hfront]
      exact hv
  · rintro ⟨front, flag, back, v, ⟨hn, flags, hopen, hflag⟩, hv, hrest⟩
    refine ⟨front.filter (· ≠ []), flag, back.filter (· ≠ []), flags, v, ?_,
      opensWith_filter.mpr hopen, hflag, (hstart front flag v).mpr hv, hrest⟩
    obtain ⟨_, _, _, _, htoken, _⟩ := hopen
    have hne : flag ≠ [] := fun h => flags_nonempty htoken (h ▸ hflag)
    rw [splitSpaces, hn, List.filter_append, List.filter_cons_of_pos (by simpa using hne)]

theorem trimEnd_append {s t : Text} (h : trimEnd t ≠ []) :
    trimEnd (s ++ t) = s ++ trimEnd t := by
  have hne : (t.reverse.dropWhile isWhitespace).isEmpty = false := by
    rw [List.isEmpty_eq_false_iff]
    exact fun hn => h (congrArg List.reverse hn)
  rw [trimEnd, List.reverse_append, List.dropWhile_append, hne]
  simp [trimEnd]

/-- Of two ends of one text, the trimmed one is in the other just if it begins no later. -/
theorem trim_isInfix_iff {n z v : Text} (hz : z <:+ n) (hv : v <:+ n) (hne : trim z ≠ []) :
    trim z <:+: trim v ↔ trimStart z <:+ v := by
  have hzn : trimStart z <:+ n := (List.dropWhile_suffix _).trans hz
  constructor
  · intro h
    by_contra hno
    have hvz : v <:+ trimStart z :=
      (List.suffix_or_suffix_of_suffix hzn hv).resolve_left hno
    obtain ⟨w, hw⟩ := hvz
    obtain ⟨b, hb⟩ := List.dropWhile_suffix (l := v) isWhitespace
    have hvne : trimEnd (trimStart v) ≠ [] := by
      intro hnil
      rw [trim, trim, hnil] at h
      exact hne (List.infix_nil.mp h)
    have hall : trim z = (w ++ b) ++ trim v := by
      rw [trim, trim, ← trimEnd_append hvne, ← hw, List.append_assoc]
      exact congrArg (fun t => trimEnd (w ++ t)) hb.symm
    have hlen := h.length_le
    rw [hall, List.length_append] at hlen
    have hwb : w ++ b = [] := List.eq_nil_of_length_eq_zero (by omega)
    rw [(List.append_eq_nil_iff.mp hwb).1, List.nil_append] at hw
    exact hno (hw ▸ List.suffix_rfl)
  · rintro ⟨w, rfl⟩
    have hfront : ∃ b, trimStart (w ++ trimStart z) = b ++ trimStart z := by
      rw [trimStart, List.dropWhile_append]
      split
      · exact ⟨[], List.dropWhile_idempotent isWhitespace z⟩
      · exact ⟨_, rfl⟩
    obtain ⟨b, hb⟩ := hfront
    rw [trim.eq_def (w ++ trimStart z), hb, trimEnd_append hne]
    exact (List.suffix_append b (trim z)).isInfix

/-- Without empty pieces in front, the presumed end is the end. -/
theorem starts_behind {n flag : Text} {front back : List Text} (h : Flagged n front flag back)
    (hone : [] ∉ front) : Starts n front flag (behind back) :=
  ⟨ahead front ++ flag, pieces_eq h.1, by rw [List.count_eq_zero.mpr hone, Nat.add_zero]⟩

/-- Code behind a flag is handed on, exactly if some presumed end of a flag is at a character
of the command and comes no later than the code. -/
theorem payload_shown_iff {p : Platform} {r flag : Text} {front back : List Text}
    (h : Flagged (normalizeExecCommand p r) front flag back) (hback : trim (behind back) ≠ []) :
    (∃ s ∈ extractInterpreterPayloads (normalizeExecCommand p r), trim (behind back) <:+: s) ↔
      ∃ front' flag' back' v, Flagged (normalizeExecCommand p r) front' flag' back' ∧
        Starts (normalizeExecCommand p r) front' flag' v ∧ trimStart (behind back) <:+ v := by
  have hz : behind back <:+ normalizeExecCommand p r := ⟨_, (pieces_eq h.1).symm⟩
  constructor
  · rintro ⟨s, hs, hin⟩
    obtain ⟨front', flag', back', v, hf, hv, -, rfl⟩ := mem_payloads.mp hs
    have hend : v <:+ normalizeExecCommand p r := ⟨_, hv.choose_spec.1.symm⟩
    exact ⟨front', flag', back', v, hf, hv, (trim_isInfix_iff hz hend hback).mp hin⟩
  · rintro ⟨front', flag', back', v, hf, hv, hin⟩
    have hend : v <:+ normalizeExecCommand p r := ⟨_, hv.choose_spec.1.symm⟩
    have hshown := (trim_isInfix_iff hz hend hback).mpr hin
    refine ⟨trim v, mem_payloads.mpr ⟨front', flag', back', v, hf, hv, ?_, rfl⟩, hshown⟩
    intro hnil
    rw [hnil] at hshown
    exact hback (List.infix_nil.mp hshown)

theorem payload_shown_rm :
    ∃ s ∈ extractInterpreterPayloads
      (normalizeExecCommand plainPlatform "sudo bash -c 'rm -rf x'".toList),
      trim (behind ["rm".toList, "-rf".toList, "x".toList]) <:+: s :=
  have h : Flagged (normalizeExecCommand plainPlatform "sudo bash -c 'rm -rf x'".toList)
      ["sudo".toList, "bash".toList] "-c".toList ["rm".toList, "-rf".toList, "x".toList] :=
    ⟨by decide, ["-c".toList], ⟨["sudo".toList], "bash".toList, [], rfl, by decide, by simp⟩,
      by simp⟩
  (payload_shown_iff h (by decide)).mpr
    ⟨_, _, _, _, h, starts_behind h (by decide), List.dropWhile_suffix _⟩

/-- Ten empty words put the presumed end of the flag inside the letter. -/
def hidden : Text := "echo '' '' '' '' '' '' '' '' '' '' \u00e9; bash -c 'rm -rf /'".toList

theorem payload_hidden :
    ¬ ∀ r front flag back, Flagged (normalizeExecCommand plainPlatform r) front flag back →
      trim (behind back) ≠ [] →
      ∃ s ∈ extractInterpreterPayloads (normalizeExecCommand plainPlatform r),
        trim (behind back) <:+: s := by
  intro h
  have hempty : extractInterpreterPayloads (normalizeExecCommand plainPlatform hidden) = [] := by
    decide
  obtain ⟨s, hs, -⟩ := h hidden ("echo".toList :: (List.replicate 10 [] ++
    ["\u00e9;".toList, "bash".toList])) "-c".toList ["rm".toList, "-rf".toList, "/".toList]
    ⟨by decide, ["-c".toList], ⟨"echo".toList :: (List.replicate 10 [] ++ ["\u00e9;".toList]),
      "bash".toList, [], rfl, by decide, by simp⟩, by simp⟩ (by decide)
  rw [hempty] at hs
  cases hs

end NemesisBot.Matcher
