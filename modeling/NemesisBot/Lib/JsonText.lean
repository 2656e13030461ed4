import NemesisBot.Lib.Json

/-! The compact text of a JSON value can be read back, piece by piece. -/
namespace NemesisBot
open Strings

/-- The value of a hexadecimal digit in lower case. -/
def hexValue (c : Char) : Nat := if c.toNat < 97 then c.toNat - 48 else c.toNat - 87

/-- The first character of the content of a JSON string, and what follows it. -/
def unescapeChar : Text → Option (Char × Text)
  | '\\' :: '"' :: rest => some ('"', rest)
  | '\\' :: '\\' :: rest => some ('\\', rest)
  | '\\' :: 'b' :: rest => some (Char.ofNat 8, rest)
  | '\\' :: 't' :: rest => some (Char.ofNat 9, rest)
  | '\\' :: 'n' :: rest => some (Char.ofNat 10, rest)
  | '\\' :: 'f' :: rest => some (Char.ofNat 12, rest)
  | '\\' :: 'r' :: rest => some (Char.ofNat 13, rest)
  | '\\' :: 'u' :: _ :: _ :: a :: b :: rest =>
    some (Char.ofNat (hexValue a * 16 + hexValue b), rest)
  | '\\' :: _ => none
  | c :: rest => some (c, rest)
  | [] => none

theorem unescapeChar_control (n : Nat) (hn : n < 32) (rest : Text) :
    unescapeChar (escapeChar (Char.ofNat n) ++ rest) = some (Char.ofNat n, rest) := by
  interval_cases n <;> rfl

theorem unescapeChar_escape (c : Char) (rest : Text) :
    unescapeChar (escapeChar c ++ rest) = some (c, rest) := by
  by_cases hn : c.toNat < 32
  · have h := unescapeChar_control c.toNat hn rest
    rwa [Char.ofNat_toNat] at h
  · by_cases hquote : c = '"'
    · subst hquote
      rfl
    · by_cases hslash : c = '\\'
      · subst hslash
        rfl
      · have hplain : escapeChar c = [c] := by
          have hne (k : Nat) (hk : k < 32) : c.toNat ≠ k := by omega
          simp [escapeChar, hquote, hslash, hn, hne]
        rw [hplain, List.singleton_append, unescapeChar]
        all_goals simp [hslash]

theorem escapeChar_inj {c d : Char} {r r' : Text} (h : escapeChar c ++ r = escapeChar d ++ r') :
    c = d ∧ r = r' := by
  have hread := unescapeChar_escape c r
  rw [h, unescapeChar_escape] at hread
  obtain ⟨rfl, rfl⟩ := Prod.mk.inj (Option.some.inj hread)
  exact ⟨rfl, rfl⟩

/-- No escaped character starts with the closing quote. -/
theorem escapeChar_ne_quote (c : Char) (r r' : Text) : escapeChar c ++ r ≠ '"' :: r' := by
  intro h
  have hread := unescapeChar_escape c r
  rw [h] at hread
  obtain ⟨rfl, -⟩ := Prod.mk.inj (Option.some.inj hread)
  exact absurd h (by simp [escapeChar])

theorem quoted_inj {s s' r r' : Text} (h : quoted s ++ r = quoted s' ++ r') : s = s' ∧ r = r' := by
  have hbody : s.flatMap escapeChar ++ '"' :: r = s'.flatMap escapeChar ++ '"' :: r' := by
    simpa [quoted] using h
  clear h
  induction s generalizing s' with
  | nil =>
    cases s' with
    | nil => exact ⟨rfl, by simpa using hbody⟩
    | cons d s' =>
      rw [List.flatMap_cons, List.append_assoc] at hbody
      exact absurd hbody.symm (escapeChar_ne_quote d _ r)
  | cons c s ih =>
    cases s' with
    | nil =>
      rw [List.flatMap_cons, List.append_assoc] at hbody
      exact absurd hbody (escapeChar_ne_quote c _ r')
    | cons d s' =>
      rw [List.flatMap_cons, List.flatMap_cons, List.append_assoc, List.append_assoc] at hbody
      obtain ⟨rfl, hrest⟩ := escapeChar_inj hbody
      obtain ⟨rfl, hr⟩ := ih hrest
      exact ⟨rfl, hr⟩

theorem toDigits_inj {n m : Nat} (h : Nat.toDigits 10 n = Nat.toDigits 10 m) : n = m := by
  have hn : Nat.ofDigitChars 10 (Nat.toDigits 10 n) 0 = n := Nat.ofDigitChars_ten_toDigits
  rw [h, Nat.ofDigitChars_ten_toDigits] at hn
  exact hn.symm

theorem takeWhile_toDigits (n : Nat) {c : Char} (hc : c.isDigit = false) (r : Text) :
    (Nat.toDigits 10 n ++ c :: r).takeWhile Char.isDigit = Nat.toDigits 10 n := by
  have hdigits (d : Char) (hd : d ∈ Nat.toDigits 10 n) : d.isDigit = true :=
    Nat.isDigit_of_mem_toDigits (by decide) (by decide) hd
  rw [List.takeWhile_append_of_pos hdigits, List.takeWhile_cons_of_neg (by simp [hc]), List.append_nil]

/-- The digits of a number end where the first other character is. -/
theorem digits_inj {n m : Nat} {c d : Char} {r r' : Text} (hc : c.isDigit = false)
    (hd : d.isDigit = false) (h : Nat.toDigits 10 n ++ c :: r = Nat.toDigits 10 m ++ d :: r') :
    n = m ∧ c :: r = d :: r' := by
  have hdigits := congrArg (List.takeWhile Char.isDigit) h
  rw [takeWhile_toDigits n hc, takeWhile_toDigits m hd] at hdigits
  rw [hdigits] at h
  exact ⟨toDigits_inj hdigits, List.append_cancel_left h⟩

theorem digits_sep_inj {p : Text} (hp : p.head?.map Char.isDigit = some false) {n m : Nat}
    {r r' : Text} (h : Nat.toDigits 10 n ++ (p ++ r) = Nat.toDigits 10 m ++ (p ++ r')) :
    n = m ∧ r = r' := by
  cases p with
  | nil => cases hp
  | cons c p =>
    have hc : c.isDigit = false := Option.some.inj hp
    obtain ⟨hn, hr⟩ := digits_inj hc hc h
    exact ⟨hn, List.append_cancel_left (List.cons.inj hr).2⟩

theorem join_comma (s : Text) (rest : List Text) :
    join [','] (s :: rest) = s ++ rest.flatMap fun t => ',' :: t := by
  induction rest generalizing s with
  | nil => simp [join]
  | cons t rest ih => rw [join, ih, List.flatMap_cons, List.append_assoc]; rfl

/-- The texts of an array of strings end with its bracket. -/
theorem strings_inj {xs ys : List Text} {r r' : Text}
    (h : join [','] (xs.map quoted) ++ ']' :: r = join [','] (ys.map quoted) ++ ']' :: r') :
    xs = ys ∧ r = r' := by
  have hquote (s t : Text) : quoted s ++ t = '"' :: ((quoted s).tail ++ t) := rfl
  have htail (xs ys : List Text) (h : (xs.map quoted).flatMap (fun t => ',' :: t) ++ ']' :: r =
      (ys.map quoted).flatMap (fun t => ',' :: t) ++ ']' :: r') : xs = ys ∧ r = r' := by
    induction xs generalizing ys with
    | nil =>
      cases ys with
      | nil => exact ⟨rfl, by simpa using h⟩
      | cons y ys => simp at h
    | cons x xs ih =>
      cases ys with
      | nil => simp at h
      | cons y ys =>
        simp only [List.map_cons, List.flatMap_cons, List.cons_append, List.append_assoc] at h
        obtain ⟨rfl, hrest⟩ := quoted_inj (List.cons.inj h).2
        obtain ⟨rfl, hr⟩ := ih ys hrest
        exact ⟨rfl, hr⟩
  cases xs with
  | nil =>
    cases ys with
    | nil => exact ⟨rfl, by simpa using h⟩
    | cons y ys =>
      rw [List.map_cons, join_comma, List.append_assoc, hquote] at h
      simp [join] at h
  | cons x xs =>
    cases ys with
    | nil =>
      rw [List.map_cons, join_comma, List.append_assoc, hquote] at h
      simp [join] at h
    | cons y ys =>
      simp only [List.map_cons, join_comma, List.append_assoc] at h
      obtain ⟨rfl, hrest⟩ := quoted_inj h
      obtain ⟨rfl, hr⟩ := htail xs ys hrest
      exact ⟨rfl, hr⟩

theorem renderItems_str (xs : List Text) : renderItems (xs.map Json.str) = xs.map quoted := by
  induction xs with
  | nil => rfl
  | cons x xs ih => rw [List.map_cons, renderItems, Json.render, ih, List.map_cons]

/-! The same value, with the entries of its objects in any order. -/

inductive Json.Same : Json → Json → Prop
  | leaf (v : Json) : Same v v
  | arr (xs ys : List Json) (len : xs.length = ys.length)
      (items : ∀ (i : Nat) v w, xs[i]? = some v → ys[i]? = some w → Same v w) :
      Same (.arr xs) (.arr ys)
  | obj (fs gs : Fields) (keys : (fs.map Prod.fst).Perm (gs.map Prod.fst))
      (values : ∀ k v w, (k, v) ∈ fs → (k, w) ∈ gs → Same v w) : Same (.obj fs) (.obj gs)

theorem Json.Same.of_null {w : Json} (h : Same .null w) : w = .null := by
  cases h
  rfl

theorem Json.Same.of_num {n : Text} {w : Json} (h : Same (.num n) w) : w = .num n := by
  cases h
  rfl

theorem Json.Same.of_str {s : Text} {w : Json} (h : Same (.str s) w) : w = .str s := by
  cases h
  rfl

theorem Json.Same.of_strings {xs : List Text} {w : Json} (h : Same (.arr (xs.map .str)) w) :
    w = .arr (xs.map .str) := by
  cases h with
  | leaf => rfl
  | arr _ ys len items =>
    refine congrArg Json.arr (List.ext_getElem? fun i => ?_).symm
    cases hy : ys[i]? with
    | none =>
      have hi : ys.length ≤ i := List.getElem?_eq_none_iff.mp hy
      exact List.getElem?_eq_none_iff.mpr (len ▸ hi)
    | some w =>
      have hi : i < xs.length := by
        rw [← List.length_map (f := Json.str), len]
        exact (List.getElem?_eq_some_iff.mp hy).1
      have hx : (xs.map Json.str)[i]? = some (.str xs[i]) := by simp [hi]
      rw [hx, (items i _ w hx hy).of_str]

/-- What an object has under a key, another form of it has there as well. -/
theorem Json.Same.lookup {fs : Fields} {w : Json} (h : Same (.obj fs) w)
    (hn : (fs.map Prod.fst).Nodup) : ∃ gs, w = .obj gs ∧
      ∀ k v, fs.lookup k = some v → ∃ u, gs.lookup k = some u ∧ Same v u := by
  cases h with
  | leaf => exact ⟨fs, rfl, fun k v hv => ⟨v, hv, .leaf v⟩⟩
  | obj _ gs keys values =>
    refine ⟨gs, rfl, fun k v hv => ?_⟩
    have hk : k ∈ gs.map Prod.fst := keys.mem_iff.mp (mem_keys_of_lookup hv)
    obtain ⟨⟨k, u⟩, hu, rfl⟩ := List.mem_map.mp hk
    have hmem : (k, v) ∈ fs := by
      obtain ⟨before, after, rfl, -⟩ := List.lookup_eq_some_iff.mp hv
      simp
    exact ⟨u, lookup_of_mem (keys.nodup_iff.mp hn) hu, values k v u hmem hu⟩

/-- A number below `2 ^ 64` is read as it was written. -/
theorem asU64_nat {n : Nat} (h : n < 2 ^ 64) : (Json.nat n).asU64 = some n := by
  have hfold : (Nat.toDigits 10 n).foldl (fun n c => n * 10 + (c.toNat - 48)) 0 = n := by
    have hn : Nat.ofDigitChars 10 (Nat.toDigits 10 n) 0 = n := Nat.ofDigitChars_ten_toDigits
    rw [Nat.ofDigitChars_eq_foldl] at hn
    simpa [Nat.mul_comm] using hn
  have hdigits : (Nat.toDigits 10 n).all (fun c => 48 ≤ c.toNat && c.toNat ≤ 57) = true := by
    rw [List.all_eq_true]
    intro c hc
    have hd := Nat.isDigit_of_mem_toDigits (by decide) (by decide) hc
    simpa [Char.isDigit, UInt32.le_iff_toNat_le] using hd
  simp only [Json.nat, Json.asU64, hfold]
  rw [if_pos ⟨Nat.toDigits_ne_nil, hdigits, h⟩]

end NemesisBot
