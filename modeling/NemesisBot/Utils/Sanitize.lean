import NemesisBot.Lib.Json

/-! One safe path segment out of an untrusted identifier. -/
namespace NemesisBot.Sanitize
open Strings

/-- A dot stays only right after a letter or digit. -/
def segmentChars (raw : Text) : Text :=
  raw.foldl (fun out c =>
    let ok := isAsciiAlphanumeric c || c = '-' || c = '_' ||
      (c = '.' && (out.getLast?.map isAsciiAlphanumeric).getD false)
    out ++ [if ok then c else '_']) []

def trimEndDots (s : Text) : Text := (s.reverse.dropWhile (· = '.')).reverse

def fnv1a64 (bytes : List UInt8) : UInt64 :=
  bytes.foldl (fun h b => (h ^^^ b.toUInt64) * 0x100000001b3) 0xcbf29ce484222325

/-- `{:016x}` -/
def hex16 (n : Nat) : Text :=
  (List.range 16).reverse.map fun i => hexDigit (n / 16 ^ i % 16)

/-- 60 characters, two underscores and a hash in lower case. -/
def isHashSuffixForm (out : Text) : Bool :=
  out.length = 78 && (out.drop 60).take 2 = "__".toList &&
    (out.drop 62).all fun c =>
      (48 ≤ c.toNat && c.toNat ≤ 57) || (97 ≤ c.toNat && c.toNat ≤ 102)

/-- All characters are ASCII here, so a character is a byte. -/
def sanitizePathSegment (raw : Text) : Text :=
  let chars := segmentChars raw
  let out := if chars = [] ∨ chars = ".".toList ∨ chars = "..".toList then chars ++ ['_']
    else chars
  let trimmed := trimEndDots out
  if out.length ≤ 80 ∧ isHashSuffixForm trimmed = false then trimmed
  else out.take 60 ++ "__".toList ++
    hex16 (fnv1a64 (out.map fun c => UInt8.ofNat c.toNat)).toNat

theorem segmentChars_head (raw : Text) : (segmentChars raw).head? ≠ some '.' := by
  induction raw using List.reverseRecOn with
  | nil => simp [segmentChars]
  | append_singleton raw c ih =>
    rw [segmentChars, List.foldl_append, ← segmentChars, List.foldl_cons, List.foldl_nil]
    cases hs : segmentChars raw with
    | nil =>
      by_cases hc : c = '.'
      · subst hc
        decide
      · simp only [List.nil_append, List.head?_cons, ne_eq, Option.some.injEq]
        split
        · exact hc
        · decide
    | cons d out =>
      rw [hs] at ih
      simpa using ih

theorem trimEndDots_ne_nil {s : Text} {c : Char} (h : s.head? = some c) (hc : c ≠ '.') :
    trimEndDots s ≠ [] := by
  intro hnil
  have hall := List.dropWhile_eq_nil_iff.mp (List.reverse_eq_nil_iff.mp hnil)
  have hmem : c ∈ s.reverse := List.mem_reverse.mpr (List.mem_of_mem_head? h)
  exact hc (by simpa using hall c hmem)

theorem sanitizePathSegment_ne_nil (raw : Text) : sanitizePathSegment raw ≠ [] := by
  have hhead := segmentChars_head raw
  simp only [sanitizePathSegment]
  generalize segmentChars raw = chars at hhead
  cases chars with
  | nil => decide
  | cons c out =>
    have hc : c ≠ '.' := fun h => hhead (by rw [h, List.head?_cons])
    split
    · split
      · exact trimEndDots_ne_nil rfl hc
      · simp
    · split
      · exact trimEndDots_ne_nil rfl hc
      · simp

/-- The characters that a segment can have. -/
def isSegmentChar (c : Char) : Bool := isAsciiAlphanumeric c || c = '-' || c = '_' || c = '.'

theorem isSegmentChar_of_mem_segmentChars {raw : Text} {c : Char} (h : c ∈ segmentChars raw) :
    isSegmentChar c = true := by
  induction raw using List.reverseRecOn with
  | nil => cases h
  | append_singleton raw d ih =>
    rw [segmentChars, List.foldl_append, ← segmentChars, List.foldl_cons, List.foldl_nil,
      List.mem_append, List.mem_singleton] at h
    cases h with
    | inl h => exact ih h
    | inr h =>
      split at h
      · rename_i hok
        subst h
        simp only [Bool.or_eq_true, Bool.and_eq_true, decide_eq_true_eq] at hok
        simp only [isSegmentChar, Bool.or_eq_true, decide_eq_true_eq]
        tauto
      · rw [h]
        decide

theorem isSegmentChar_hexDigit (n : Nat) : isSegmentChar (hexDigit (n % 16)) = true := by
  have hlt := Nat.mod_lt n (by decide : 16 > 0)
  generalize n % 16 = k at hlt
  revert k
  decide

/-- A segment has none of the characters that separate paths and does not begin with a dot. -/
theorem sanitizePathSegment_chars {raw : Text} {c : Char} (h : c ∈ sanitizePathSegment raw) :
    isSegmentChar c = true := by
  simp only [sanitizePathSegment] at h
  generalize hout : (if segmentChars raw = [] ∨ segmentChars raw = ".".toList ∨
    segmentChars raw = "..".toList then segmentChars raw ++ ['_'] else segmentChars raw) = out at h
  have hmem : ∀ d ∈ out, isSegmentChar d = true := by
    intro d hd
    rw [← hout] at hd
    split at hd
    · cases List.mem_append.mp hd with
      | inl hd => exact isSegmentChar_of_mem_segmentChars hd
      | inr hd =>
        rw [List.mem_singleton.mp hd]
        decide
    · exact isSegmentChar_of_mem_segmentChars hd
  split at h
  · exact hmem c (List.mem_reverse.mp ((List.dropWhile_suffix _).subset (List.mem_reverse.mp h)))
  · rw [List.mem_append, List.mem_append] at h
    obtain (h | h) | h := h
    · exact hmem c (List.mem_of_mem_take h)
    · obtain rfl : c = '_' := by simpa using h
      decide
    · obtain ⟨i, -, rfl⟩ := List.mem_map.mp h
      exact isSegmentChar_hexDigit _

theorem sanitizePathSegment_head (raw : Text) : (sanitizePathSegment raw).head? ≠ some '.' := by
  have hhead := segmentChars_head raw
  simp only [sanitizePathSegment]
  generalize segmentChars raw = chars at hhead
  cases chars with
  | nil => decide
  | cons c out =>
    have hc : c ≠ '.' := fun h => hhead (by rw [h, List.head?_cons])
    have hpre (s : Text) : (trimEndDots (c :: s)).head? ≠ some '.' := by
      have hp : trimEndDots (c :: s) <+: c :: s := by
        rw [trimEndDots, ← List.reverse_suffix, List.reverse_reverse]
        exact List.dropWhile_suffix _
      cases ht : trimEndDots (c :: s) with
      | nil => exact nofun
      | cons d rest =>
        rw [ht] at hp
        rw [(List.cons_prefix_cons.mp hp).1, List.head?_cons]
        exact fun h => hc (Option.some.inj h)
    have htake (s : Text) (tail : Text) : ((c :: s).take 60 ++ tail).head? ≠ some '.' := by
      rw [List.take_succ_cons, List.cons_append, List.head?_cons]
      exact fun h => hc (Option.some.inj h)
    split
    · split
      · exact hpre _
      · rw [List.append_assoc]
        exact htake _ _
    · split
      · exact hpre _
      · rw [List.append_assoc]
        exact htake _ _

example : sanitizePathSegment "cluster/a b..c.".toList = "cluster_a_b._c".toList := by decide

end NemesisBot.Sanitize
