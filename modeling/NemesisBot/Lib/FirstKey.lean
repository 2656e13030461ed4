import Mathlib

/-! Lists searched for the first element with a key, and that element replaced. -/
namespace NemesisBot.FirstKey
variable {α κ : Type*} [DecidableEq κ]

def findKey (key : α → κ) (k : κ) (l : List α) : Option α := l.find? fun a => key a = k

/-- The first element with the key becomes `b`. -/
def setKey (key : α → κ) (k : κ) (b : α) : List α → List α
  | [] => []
  | a :: l => if key a = k then b :: l else a :: setKey key k b l

variable {key : α → κ} {k k' : κ} {l : List α} {a b : α}

theorem findKey_cons : findKey key k (a :: l) = if key a = k then some a else findKey key k l := by
  by_cases h : key a = k
  · simp [findKey, h]
  · simp [findKey, h]

theorem key_of_findKey (h : findKey key k l = some a) : key a = k := by
  have hp := List.find?_some h
  simpa using hp

theorem mem_of_findKey (h : findKey key k l = some a) : a ∈ l := List.mem_of_find?_eq_some h

theorem findKey_eq_none_iff : findKey key k l = none ↔ k ∉ l.map key := by
  simp [findKey]

theorem findKey_of_mem (hn : (l.map key).Nodup) (ha : a ∈ l) : findKey key (key a) l = some a := by
  cases hf : findKey key (key a) l with
  | none => exact absurd (List.mem_map_of_mem ha) (findKey_eq_none_iff.mp hf)
  | some b => rw [List.inj_on_of_nodup_map hn (mem_of_findKey hf) ha (key_of_findKey hf)]

theorem map_key_setKey (hb : key b = k) : (setKey key k b l).map key = l.map key := by
  induction l with
  | nil => rfl
  | cons c l ih =>
    by_cases hc : key c = k
    · simp [setKey, hc, hb]
    · simp [setKey, hc, ih]

/-- Putting the found element back undoes the replacement. -/
theorem setKey_undo (h : findKey key k l = some a) (hb : key b = k) :
    setKey key k a (setKey key k b l) = l := by
  induction l with
  | nil => rfl
  | cons c l ih =>
    by_cases hc : key c = k
    · obtain rfl : c = a := by simpa [findKey, hc] using h
      simp [setKey, hc, hb]
    · have hl : findKey key k l = some a := by simpa [findKey, hc] using h
      simp [setKey, hc, ih hl]

theorem mem_setKey {c : α} (h : c ∈ setKey key k b l) : c = b ∨ c ∈ l := by
  induction l with
  | nil => exact .inr h
  | cons d l ih =>
    rw [setKey] at h
    split at h
    · exact (List.mem_cons.mp h).imp_right (List.mem_cons_of_mem d)
    · cases List.mem_cons.mp h with
      | inl hd => exact .inr (hd ▸ List.mem_cons_self)
      | inr hl => exact (ih hl).imp_right (List.mem_cons_of_mem d)

theorem findKey_setKey (h : findKey key k l = some a) (hb : key b = k) :
    findKey key k' (setKey key k b l) = if k' = k then some b else findKey key k' l := by
  induction l with
  | nil => cases h
  | cons c l ih =>
    rw [findKey_cons] at h
    rw [setKey, findKey_cons]
    by_cases hc : key c = k
    · rw [if_pos hc, findKey_cons, hb, hc]
      by_cases hk : k' = k
      · rw [if_pos hk.symm, if_pos hk]
      · rw [if_neg (Ne.symm hk), if_neg hk, if_neg (Ne.symm hk)]
    · rw [if_neg hc] at h
      rw [if_neg hc, findKey_cons, ih h]
      by_cases hk : k' = k
      · rw [hk, if_neg hc, if_pos rfl, if_pos rfl]
      · rw [if_neg hk, if_neg hk]

theorem findKey_concat (hb : k ∉ l.map key) (hk : key b = k) :
    findKey key k' (l ++ [b]) = if k' = k then some b else findKey key k' l := by
  rw [findKey, List.find?_append, ← findKey]
  by_cases h : k' = k
  · rw [h, findKey_eq_none_iff.mpr hb, if_pos rfl]
    simp [hk]
  · have hne : ¬ key b = k' := fun he => h (he.symm.trans hk)
    rw [if_neg h]
    simp [hne]

theorem findKey_map {f : α → α} (hf : ∀ a, key (f a) = key a) :
    findKey key k (l.map f) = (findKey key k l).map f := by
  rw [findKey, List.find?_map, findKey]
  congr 2
  funext a
  simp [hf]

theorem findKey_filter (hn : (l.map key).Nodup) (p : α → Bool) :
    findKey key k (l.filter p) = (findKey key k l).filter p := by
  have hn' : ((l.filter p).map key).Nodup := hn.sublist (List.filter_sublist.map key)
  cases h : findKey key k l with
  | none =>
    rw [Option.filter_none, findKey_eq_none_iff]
    exact fun hk => findKey_eq_none_iff.mp h ((List.filter_sublist.map key).subset hk)
  | some a =>
    cases hp : p a with
    | true =>
      rw [Option.filter_some_pos hp]
      have hf := findKey_of_mem hn' (List.mem_filter.mpr ⟨mem_of_findKey h, hp⟩)
      rwa [key_of_findKey h] at hf
    | false =>
      rw [Option.filter_some_neg (by simp [hp]), findKey_eq_none_iff]
      intro hk
      obtain ⟨c, hc, hkc⟩ := List.mem_map.mp hk
      obtain ⟨hcl, hpc⟩ := List.mem_filter.mp hc
      have hf := findKey_of_mem hn hcl
      rw [hkc, h] at hf
      rw [← Option.some.inj hf, hp] at hpc
      cases hpc

theorem findKey_eraseIdx (hn : (l.map key).Nodup) {i : Nat} (hi : l[i]? = some a)
    (ha : key a = k) :
    findKey key k' (l.eraseIdx i) = if k' = k then none else findKey key k' l := by
  induction l generalizing i with
  | nil => cases hi
  | cons c l ih =>
    obtain ⟨hc, hl⟩ := List.nodup_cons.mp hn
    cases i with
    | zero =>
      obtain rfl := Option.some.inj hi
      rw [List.eraseIdx_cons_zero, findKey_cons, ha]
      by_cases hk : k' = k
      · rw [if_pos hk, hk, findKey_eq_none_iff]
        exact ha ▸ hc
      · rw [if_neg hk, if_neg (Ne.symm hk)]
    | succ i =>
      rw [List.eraseIdx_cons_succ, findKey_cons, findKey_cons, ih hl hi]
      by_cases hk : k' = k
      · have hne : ¬ key c = k' := by
          rintro rfl
          refine hc (hk ▸ ha ▸ List.mem_map_of_mem ?_)
          exact List.mem_of_getElem? hi
        rw [if_neg hne, if_pos hk, if_pos hk]
      · rw [if_neg hk, if_neg hk]

end NemesisBot.FirstKey
