import Mathlib

/-! Finite tables whose rows are keyed by one of their fields, with the statements that
insert, update, delete and select rows. -/
namespace NemesisBot

/-- Rows with distinct keys. -/
@[ext]
structure Table {α κ : Type*} (key : α → κ) where
  rows : List α
  nodup : (rows.map key).Nodup

namespace Table
variable {α κ : Type*} {key : α → κ}

def empty : Table key := ⟨[], List.nodup_nil⟩

/-- An update that sets fields other than the key. -/
@[ext]
structure Setter (key : α → κ) where
  set : α → α
  key_set : ∀ a, key (set a) = key a

theorem Setter.key_ite (f : Setter key) (c : Prop) [Decidable c] (a : α) :
    key (if c then f.set a else a) = key a := by
  split
  · exact f.key_set a
  · rfl

/-- Sets fields of the rows that meet the condition. -/
def update (t : Table key) (p : α → Bool) (f : Setter key) : Table key where
  rows := t.rows.map fun a => if p a then f.set a else a
  nodup := by
    have hkeys : (t.rows.map fun a => if p a then f.set a else a).map key = t.rows.map key := by
      rw [List.map_map]
      exact List.map_congr_left fun a _ => f.key_ite (p a) a
    rw [hkeys]
    exact t.nodup

/-- Removes the rows that meet the condition. -/
def delete (t : Table key) (p : α → Bool) : Table key where
  rows := t.rows.filter fun a => !p a
  nodup := t.nodup.sublist (List.filter_sublist.map key)

/-- The rows that meet the condition. -/
def select (t : Table key) (p : α → Bool) : List α := t.rows.filter p

theorem mem_select {t : Table key} {p : α → Bool} {a : α} :
    a ∈ t.select p ↔ a ∈ t.rows ∧ p a := List.mem_filter

theorem mem_delete {t : Table key} {p : α → Bool} {a : α} :
    a ∈ (t.delete p).rows ↔ a ∈ t.rows ∧ p a = false := by
  simp [delete]

theorem mem_update {t : Table key} {p : α → Bool} {f : Setter key} {b : α} :
    b ∈ (t.update p f).rows ↔ ∃ a ∈ t.rows, (if p a then f.set a else a) = b :=
  List.mem_map

theorem update_congr {t : Table key} {p q : α → Bool} (f : Setter key)
    (h : ∀ a ∈ t.rows, p a = q a) : t.update p f = t.update q f := by
  apply Table.ext
  exact List.map_congr_left fun a ha => by rw [h a ha]

theorem update_eq_self {t : Table key} {p : α → Bool} (f : Setter key)
    (h : ∀ a ∈ t.rows, p a = false) : t.update p f = t := by
  apply Table.ext
  calc t.rows.map (fun a => if p a then f.set a else a)
      = t.rows.map id := List.map_congr_left fun a ha => by simp [h a ha]
    _ = t.rows := List.map_id _

theorem select_eq_nil {t : Table key} {p : α → Bool} :
    t.select p = [] ↔ ∀ a ∈ t.rows, p a = false := by
  simp [select]

theorem row_unique {t : Table key} {a b : α} (ha : a ∈ t.rows) (hb : b ∈ t.rows)
    (h : key a = key b) : a = b := List.inj_on_of_nodup_map t.nodup ha hb h

variable [DecidableEq κ]

/-- The row with this key. -/
def find (t : Table key) (k : κ) : Option α := t.rows.find? fun a => key a = k

/-- Adds a row; a row with its key stays as it is. -/
def insert (t : Table key) (a : α) : Table key :=
  if h : key a ∈ t.rows.map key then t
  else ⟨t.rows ++ [a], by
    rw [List.map_append]
    exact List.nodup_append.mpr ⟨t.nodup, by simp, fun k hk l hl => by
      rw [List.mem_singleton.mp hl]
      rintro rfl
      exact h hk⟩⟩

/-- The condition that picks the row of a key. -/
abbrev hasKey (key : α → κ) (k : κ) (a : α) : Bool := key a = k

theorem mem_of_find {t : Table key} {k : κ} {a : α} (h : t.find k = some a) : a ∈ t.rows :=
  List.mem_of_find?_eq_some h

theorem key_of_find {t : Table key} {k : κ} {a : α} (h : t.find k = some a) : key a = k := by
  have hp := List.find?_some h
  simpa using hp

theorem find_of_mem {t : Table key} {a : α} (h : a ∈ t.rows) : t.find (key a) = some a := by
  cases hf : t.find (key a) with
  | none =>
    have hno := List.find?_eq_none.mp hf a h
    simp at hno
  | some b => rw [row_unique (mem_of_find hf) h (key_of_find hf)]

theorem find_eq_some_iff {t : Table key} {k : κ} {a : α} :
    t.find k = some a ↔ a ∈ t.rows ∧ key a = k :=
  ⟨fun h => ⟨mem_of_find h, key_of_find h⟩, fun h => h.2 ▸ find_of_mem h.1⟩

theorem find_eq_none_iff {t : Table key} {k : κ} :
    t.find k = none ↔ ∀ a ∈ t.rows, key a ≠ k := by
  simp [find]

theorem key_mem_iff {t : Table key} {k : κ} : k ∈ t.rows.map key ↔ (t.find k).isSome := by
  simp [find]

@[simp]
theorem find_update (t : Table key) (p : α → Bool) (f : Setter key) (k : κ) :
    (t.update p f).find k = (t.find k).map fun a => if p a then f.set a else a := by
  cases h : t.find k with
  | none =>
    rw [Option.map_none, find_eq_none_iff]
    intro b hb
    obtain ⟨a, ha, rfl⟩ := mem_update.mp hb
    rw [f.key_ite]
    exact find_eq_none_iff.mp h a ha
  | some a =>
    rw [Option.map_some, find_eq_some_iff]
    exact ⟨mem_update.mpr ⟨a, mem_of_find h, rfl⟩, (f.key_ite _ a).trans (key_of_find h)⟩

@[simp]
theorem find_delete (t : Table key) (p : α → Bool) (k : κ) :
    (t.delete p).find k = (t.find k).filter fun a => !p a := by
  cases h : t.find k with
  | none =>
    rw [Option.filter_none, find_eq_none_iff]
    intro b hb
    exact find_eq_none_iff.mp h b (mem_delete.mp hb).1
  | some a =>
    obtain ⟨ha, hk⟩ := find_eq_some_iff.mp h
    cases hp : p a with
    | false =>
      rw [Option.filter_some_pos (by simp [hp])]
      exact find_eq_some_iff.mpr ⟨mem_delete.mpr ⟨ha, hp⟩, hk⟩
    | true =>
      rw [Option.filter_some_neg (by simp [hp]), find_eq_none_iff]
      intro b hb hbk
      obtain ⟨hb, hpb⟩ := mem_delete.mp hb
      rw [row_unique hb ha (hbk.trans hk.symm), hp] at hpb
      cases hpb

theorem insert_of_none {t : Table key} {a : α} (h : t.find (key a) = none) :
    (t.insert a).rows = t.rows ++ [a] := by
  have hmem : key a ∉ t.rows.map key := by
    rw [key_mem_iff, h]
    simp
  rw [insert, dif_neg hmem]

theorem insert_of_some {t : Table key} {a b : α} (h : t.find (key a) = some b) :
    t.insert a = t := by
  have hmem : key a ∈ t.rows.map key := by
    rw [key_mem_iff, h]
    rfl
  rw [insert, dif_pos hmem]

theorem find_insert (t : Table key) (a : α) (k : κ) :
    (t.insert a).find k = if k = key a then (t.find k).or (some a) else t.find k := by
  cases h : t.find (key a) with
  | some b =>
    rw [insert_of_some h]
    split
    · rename_i hk
      rw [hk, h]
      rfl
    · rfl
  | none =>
    have hrows : (t.insert a).find k = (t.rows ++ [a]).find? fun b => key b = k := by
      rw [find, insert_of_none h]
    rw [hrows, List.find?_append]
    by_cases hk : k = key a
    · simp [hk, find]
    · rw [if_neg hk, find]
      have hne : ¬ key a = k := fun he => hk he.symm
      simp [hne]

/-- Adds a row in place of the one with its key. -/
def put (t : Table key) (a : α) : Table key := (t.delete (hasKey key (key a))).insert a

theorem find_delete_key (t : Table key) (k l : κ) :
    (t.delete (hasKey key k)).find l = if l = k then none else t.find l := by
  rw [find_delete]
  cases h : t.find l with
  | none => simp
  | some a => by_cases hl : l = k <;> simp [key_of_find h, hl]

theorem find_delete_self (t : Table key) (k : κ) : (t.delete (hasKey key k)).find k = none := by
  rw [find_delete_key, if_pos rfl]

theorem rows_put (t : Table key) (a : α) :
    (t.put a).rows = (t.delete (hasKey key (key a))).rows ++ [a] :=
  insert_of_none (find_delete_self t (key a))

theorem mem_put {t : Table key} {a b : α} :
    b ∈ (t.put a).rows ↔ b = a ∨ b ∈ t.rows ∧ key b ≠ key a := by
  rw [rows_put, List.mem_append, mem_delete, List.mem_singleton, or_comm]
  simp

@[simp]
theorem find_put (t : Table key) (a : α) (k : κ) :
    (t.put a).find k = if k = key a then some a else t.find k := by
  rw [put, find_insert, find_delete_key]
  split <;> simp

theorem length_delete_key {t : Table key} {a : α} (h : a ∈ t.rows) :
    (t.delete (hasKey key (key a))).rows.length + 1 = t.rows.length := by
  have hone : t.rows.filter (fun b => key b = key a) = [a] := by
    have hnd : (t.rows.filter fun b => key b = key a).Nodup := t.nodup.of_map.filter _
    refine List.perm_singleton.mp ((List.perm_ext_iff_of_nodup hnd (by simp)).mpr fun b => ?_)
    simp only [List.mem_filter, decide_eq_true_eq, List.mem_singleton]
    exact ⟨fun hb => row_unique hb.1 h hb.2, fun hb => by rw [hb]; exact ⟨h, rfl⟩⟩
  have hsum := List.length_eq_length_filter_add (l := t.rows) (fun b => key b = key a)
  rw [hone, List.length_singleton] at hsum
  rw [hsum, delete, Nat.add_comm]

theorem delete_key_of_none {t : Table key} {k : κ} (h : t.find k = none) :
    t.delete (hasKey key k) = t := by
  apply Table.ext
  rw [delete, List.filter_eq_self]
  intro b hb
  simpa using find_eq_none_iff.mp h b hb

theorem length_put_of_none {t : Table key} {a : α} (h : t.find (key a) = none) :
    (t.put a).rows.length = t.rows.length + 1 := by
  rw [rows_put, delete_key_of_none h, List.length_append, List.length_singleton]

theorem length_put_of_some {t : Table key} {a b : α} (h : t.find (key a) = some b) :
    (t.put a).rows.length = t.rows.length := by
  obtain ⟨hb, hk⟩ := find_eq_some_iff.mp h
  rw [rows_put, List.length_append, List.length_singleton, ← hk, length_delete_key hb]

theorem length_put_le (t : Table key) (a : α) : (t.put a).rows.length ≤ t.rows.length + 1 := by
  cases h : t.find (key a) with
  | none => exact (length_put_of_none h).le
  | some b => exact (length_put_of_some h).le.trans (Nat.le_succ _)

end Table

end NemesisBot
