import NemesisBot.Lib.Strings

/-! JSON values. A number is kept as the text it is printed as; an object is its list of
entries, read by key. -/
namespace NemesisBot
open Strings

inductive Json where
  | null
  | bool (b : Bool)
  | num (literal : Text)
  | str (s : Text)
  | arr (items : List Json)
  | obj (fields : List (Text × Json))

/-- The entries of an object, or of a map from names to values. -/
abbrev Fields := List (Text × Json)

def Json.asStr : Json → Option Text
  | .str s => some s
  | _ => none

def Json.asArray : Json → Option (List Json)
  | .arr items => some items
  | _ => none

def Json.asObject : Json → Option Fields
  | .obj fields => some fields
  | _ => none

/-- The value of a literal of digits below `2 ^ 64`. -/
def Json.asU64 : Json → Option Nat
  | .num literal =>
    let value := literal.foldl (fun n c => n * 10 + (c.toNat - 48)) 0
    if literal ≠ [] ∧ literal.all (fun c => 48 ≤ c.toNat && c.toNat ≤ 57) ∧ value < 2 ^ 64 then
      some value
    else none
  | _ => none

def Json.get (key : Text) (v : Json) : Option Json := v.asObject.bind (List.lookup key)

def hexDigit (n : Nat) : Char := if n < 10 then Char.ofNat (48 + n) else Char.ofNat (87 + n)

/-- A character inside a JSON string. -/
def escapeChar (c : Char) : Text :=
  if c = '"' then ['\\', '"']
  else if c = '\\' then ['\\', '\\']
  else if c.toNat = 8 then ['\\', 'b']
  else if c.toNat = 9 then ['\\', 't']
  else if c.toNat = 10 then ['\\', 'n']
  else if c.toNat = 12 then ['\\', 'f']
  else if c.toNat = 13 then ['\\', 'r']
  else if c.toNat < 32 then
    ['\\', 'u', '0', '0', hexDigit (c.toNat / 16), hexDigit (c.toNat % 16)]
  else [c]

def quoted (s : Text) : Text := '"' :: s.flatMap escapeChar ++ ['"']

mutual
/-- The compact encoding. -/
def Json.render : Json → Text
  | .null => "null".toList
  | .bool b => if b then "true".toList else "false".toList
  | .num literal => literal
  | .str s => quoted s
  | .arr items => '[' :: join [','] (renderItems items) ++ [']']
  | .obj fields => '\x7b' :: join [','] (renderFields fields) ++ ['\x7d']
def renderItems : List Json → List Text
  | [] => []
  | v :: rest => v.render :: renderItems rest
def renderFields : List (Text × Json) → List Text
  | [] => []
  | (k, v) :: rest => (quoted k ++ ':' :: v.render) :: renderFields rest
end

/-- Sets the value of a key. -/
def insertField {β : Type*} (key : Text) (v : β) : List (Text × β) → List (Text × β)
  | [] => [(key, v)]
  | (k, w) :: rest => if k = key then (key, v) :: rest else (k, w) :: insertField key v rest

theorem lookup_insertField {β : Type*} (key key' : Text) (v : β) (fields : List (Text × β)) :
    (insertField key v fields).lookup key' =
      if key' = key then some v else fields.lookup key' := by
  induction fields with
  | nil =>
    by_cases h : key' = key
    · simp [insertField, h]
    · have hb : (key' == key) = false := beq_eq_false_iff_ne.mpr h
      simp [insertField, List.lookup, h, hb]
  | cons e rest ih =>
    obtain ⟨k, w⟩ := e
    by_cases hk : k = key
    · subst hk
      by_cases h : key' = k
      · simp [insertField, h]
      · have hb : (key' == k) = false := beq_eq_false_iff_ne.mpr h
        simp [insertField, List.lookup, h, hb]
    · by_cases h : key' = k
      · subst h
        simp [insertField, hk]
      · have hb : (key' == k) = false := beq_eq_false_iff_ne.mpr h
        simp [insertField, hk, List.lookup, hb, ih]

theorem keys_insertField {β : Type*} (key : Text) (v : β) (fields : List (Text × β)) :
    (insertField key v fields).map Prod.fst =
      if key ∈ fields.map Prod.fst then fields.map Prod.fst
      else fields.map Prod.fst ++ [key] := by
  induction fields with
  | nil => rfl
  | cons e rest ih =>
    obtain ⟨k, w⟩ := e
    by_cases hk : k = key
    · subst hk
      simp [insertField]
    · have hk' : ¬ key = k := fun h => hk h.symm
      rw [insertField, if_neg hk, List.map_cons, ih]
      by_cases hm : key ∈ rest.map Prod.fst
      · rw [if_pos hm, if_pos (by simpa using Or.inr hm)]
        rfl
      · rw [if_neg hm, if_neg (by simpa [hk'] using hm)]
        rfl

theorem nodup_insertField {β : Type*} {key : Text} {v : β} {fields : List (Text × β)}
    (h : (fields.map Prod.fst).Nodup) : ((insertField key v fields).map Prod.fst).Nodup := by
  rw [keys_insertField]
  split
  · exact h
  · rename_i hm
    refine List.nodup_append.mpr ⟨h, by simp, fun k hk k' hk' => ?_⟩
    rintro rfl
    exact hm (List.mem_singleton.mp hk' ▸ hk)

theorem lookup_of_mem {β : Type*} {key : Text} {v : β} {fields : List (Text × β)}
    (h : (fields.map Prod.fst).Nodup) (hm : (key, v) ∈ fields) :
    fields.lookup key = some v := by
  induction fields with
  | nil => cases hm
  | cons e rest ih =>
    obtain ⟨k, w⟩ := e
    obtain ⟨hk, hrest⟩ := List.nodup_cons.mp h
    cases List.mem_cons.mp hm with
    | inl he =>
      obtain ⟨rfl, rfl⟩ := Prod.mk.inj he
      simp
    | inr hin =>
      have hne : key ≠ k := by
        rintro rfl
        exact hk (List.mem_map.mpr ⟨(key, v), hin, rfl⟩)
      have hb : (key == k) = false := beq_eq_false_iff_ne.mpr hne
      simpa [List.lookup, hb] using ih hrest hin

theorem lookup_eq_some_iff_mem {β : Type*} {key : Text} {v : β} {fields : List (Text × β)}
    (h : (fields.map Prod.fst).Nodup) : fields.lookup key = some v ↔ (key, v) ∈ fields := by
  refine ⟨fun hv => ?_, lookup_of_mem h⟩
  obtain ⟨before, after, rfl, -⟩ := List.lookup_eq_some_iff.mp hv
  exact List.mem_append_right before List.mem_cons_self

/-- Sets the value of a key among entries that are sorted by key. -/
def insertSorted {β : Type*} (key : Text) (v : β) : List (Text × β) → List (Text × β)
  | [] => [(key, v)]
  | (k, w) :: rest => match compare key k with
    | .lt => (key, v) :: (k, w) :: rest
    | .eq => (key, v) :: rest
    | .gt => (k, w) :: insertSorted key v rest

/-- An object that is built entry by entry. -/
def Json.object (fields : Fields) : Json :=
  .obj (fields.foldl (fun entries e => insertSorted e.1 e.2 entries) [])

def Json.nat (n : Nat) : Json := .num (Nat.toDigits 10 n)

/-- Removes a key. -/
def eraseField {β : Type*} (key : Text) (fields : List (Text × β)) : List (Text × β) :=
  fields.filter fun e => e.1 ≠ key

theorem lookup_eraseField {β : Type*} (key key' : Text) (fields : List (Text × β)) :
    (eraseField key fields).lookup key' = if key' = key then none else fields.lookup key' := by
  induction fields with
  | nil => simp [eraseField]
  | cons e rest ih =>
    obtain ⟨k, w⟩ := e
    simp only [eraseField] at ih
    by_cases hk : k = key
    · subst hk
      by_cases h : key' = k
      · subst h
        simpa [eraseField] using ih
      · have hb : (key' == k) = false := beq_eq_false_iff_ne.mpr h
        simpa [eraseField, List.lookup, hb, h] using ih
    · by_cases h : key' = k
      · subst h
        simp [eraseField, hk]
      · have hb : (key' == k) = false := beq_eq_false_iff_ne.mpr h
        simpa [eraseField, hk, List.lookup, hb] using ih

theorem mem_keys_of_lookup {β : Type*} {key : Text} {v : β} {fields : List (Text × β)}
    (h : fields.lookup key = some v) : key ∈ fields.map Prod.fst := by
  obtain ⟨before, after, rfl, -⟩ := List.lookup_eq_some_iff.mp h
  simp

example : (Json.obj [("a".toList, .arr [.num ['1'], .str "x\"y".toList])]).render =
    "\x7b\"a\":[1,\"x\\\"y\"]\x7d".toList := by decide

end NemesisBot
